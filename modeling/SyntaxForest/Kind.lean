/-!
# Kinds of nodes

The closed set of constructs that a forest can hold, the keywords that a keyword literal can stand
for, and their classification.  A kind has two names: its own (`Kind.name`), which messages and
the stored form use, and the name of its interchange record (`Kind.recordType`).
-/

namespace SyntaxForest

/-- The constructs of the language, expressions first, then statements, then loops. -/
inductive Kind where
  | name
  | numberLiteral
  | stringLiteral
  | keywordLiteral
  | emptyExpression
  | arrayLiteral
  | objectLiteral
  | objectProperty
  | block
  | expressionStatement
  | emptyStatement
  | ifStatement
  | tryStatement
  | catchClause
  | forInLoop
  | doLoop
  | whileLoop
  deriving DecidableEq, Repr, Inhabited

namespace Kind

/-- Every kind, once, in declaration order. -/
def all : List Kind :=
  [.name, .numberLiteral, .stringLiteral, .keywordLiteral, .emptyExpression, .arrayLiteral,
    .objectLiteral, .objectProperty, .block, .expressionStatement, .emptyStatement, .ifStatement,
    .tryStatement, .catchClause, .forInLoop, .doLoop, .whileLoop]

/-- No kind is missing from the list of all kinds. -/
theorem mem_all (k : Kind) : k ∈ all := by cases k <;> decide

/-- The kind's own name. -/
def toString : Kind → String
  | .name => "Name"
  | .numberLiteral => "NumberLiteral"
  | .stringLiteral => "StringLiteral"
  | .keywordLiteral => "KeywordLiteral"
  | .emptyExpression => "EmptyExpression"
  | .arrayLiteral => "ArrayLiteral"
  | .objectLiteral => "ObjectLiteral"
  | .objectProperty => "ObjectProperty"
  | .block => "Block"
  | .expressionStatement => "ExpressionStatement"
  | .emptyStatement => "EmptyStatement"
  | .ifStatement => "IfStatement"
  | .tryStatement => "TryStatement"
  | .catchClause => "CatchClause"
  | .forInLoop => "ForInLoop"
  | .doLoop => "DoLoop"
  | .whileLoop => "WhileLoop"

instance : ToString Kind := ⟨toString⟩

/-- The kind of a given name. -/
def ofString? (s : String) : Option Kind := all.find? (·.toString == s)

/-- Names are read back: no two kinds share one. -/
theorem ofString?_toString (k : Kind) : ofString? k.toString = some k := by
  cases k <;> decide +kernel

/-- The type of the kind's interchange record.  A keyword literal that stands for `this` has a
record type of its own, which its record overrides. -/
def recordType : Kind → String
  | .name => "Identifier"
  | .numberLiteral => "Literal"
  | .stringLiteral => "Literal"
  | .keywordLiteral => "Literal"
  | .emptyExpression => "EmptyExpression"
  | .arrayLiteral => "ArrayExpression"
  | .objectLiteral => "ObjectExpression"
  | .objectProperty => "Property"
  | .block => "BlockStatement"
  | .expressionStatement => "ExpressionStatement"
  | .emptyStatement => "EmptyStatement"
  | .ifStatement => "IfStatement"
  | .tryStatement => "TryStatement"
  | .catchClause => "CatchClause"
  | .forInLoop => "ForInStatement"
  | .doLoop => "DoWhileStatement"
  | .whileLoop => "WhileStatement"

/-- Kinds that stand in a statement position. -/
def isStatement : Kind → Bool
  | .block | .expressionStatement | .emptyStatement | .ifStatement | .tryStatement
  | .forInLoop | .doLoop | .whileLoop => true
  | _ => false

/-- Kinds with a body and labels. -/
def isLoop : Kind → Bool
  | .forInLoop | .doLoop | .whileLoop => true
  | _ => false

/-- Literals with elements, which can stand as the target of a destructuring. -/
def isContainer : Kind → Bool
  | .arrayLiteral | .objectLiteral => true
  | _ => false

/-- Kinds whose nodes consist of their header alone. -/
def isBare : Kind → Bool
  | .emptyExpression | .emptyStatement => true
  | _ => false

/-- Kinds whose nodes never have children. -/
def isLeaf : Kind → Bool
  | .name | .numberLiteral | .stringLiteral | .keywordLiteral | .emptyExpression
  | .emptyStatement => true
  | _ => false

end Kind

/-- What a keyword literal stands for. -/
inductive Keyword where
  | true
  | false
  | null
  | this
  deriving DecidableEq, Repr

namespace Keyword

/-- A keyword literal of which nothing more is known is `null`. -/
instance : Inhabited Keyword := ⟨.null⟩

/-- Every keyword, once. -/
def all : List Keyword := [.true, .false, .null, .this]

/-- The keyword as it stands in source text. -/
def text : Keyword → String
  | .true => "true"
  | .false => "false"
  | .null => "null"
  | .this => "this"

/-- The keyword's name in the stored form. -/
def name : Keyword → String
  | .true => "True"
  | .false => "False"
  | .null => "Null"
  | .this => "This"

/-- The keyword of a given name. -/
def ofName? (s : String) : Option Keyword := all.find? (·.name == s)

/-- Each keyword has a name of its own. -/
theorem ofName?_name (k : Keyword) : ofName? k.name = some k := by
  cases k <;> decide +kernel

end Keyword

end SyntaxForest
