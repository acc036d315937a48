import SyntaxForest.Contents

/-!
# Pools

The contents of all nodes of a forest, one array per kind.  A node's header names its kind and a
place in the array of that kind, so an array never holds contents of another kind.

`Pools.get?` is the view of the pools: `get?_push` and `get?_set` say what the two operations that
change them do to it.
-/

namespace SyntaxForest

/-- The contents of the nodes, by kind. -/
structure Pools where
  names : Array Contents.Name := #[]
  numberLiterals : Array Contents.NumberLiteral := #[]
  stringLiterals : Array Contents.StringLiteral := #[]
  keywordLiterals : Array Contents.KeywordLiteral := #[]
  arrayLiterals : Array Contents.ArrayLiteral := #[]
  objectLiterals : Array Contents.ObjectLiteral := #[]
  objectProperties : Array Contents.ObjectProperty := #[]
  blocks : Array Contents.Block := #[]
  expressionStatements : Array Contents.ExpressionStatement := #[]
  ifStatements : Array Contents.IfStatement := #[]
  tryStatements : Array Contents.TryStatement := #[]
  catchClauses : Array Contents.CatchClause := #[]
  forInLoops : Array Contents.ForInLoop := #[]
  doLoops : Array Contents.DoLoop := #[]
  whileLoops : Array Contents.WhileLoop := #[]
  deriving DecidableEq, Inhabited

namespace Pools

/-- The contents at a place of the pool of a kind. -/
def get? (p : Pools) (k : Kind) (i : Nat) : Option Contents :=
  match k with
  | .name => p.names[i]?.map .name
  | .numberLiteral => p.numberLiterals[i]?.map .numberLiteral
  | .stringLiteral => p.stringLiterals[i]?.map .stringLiteral
  | .keywordLiteral => p.keywordLiterals[i]?.map .keywordLiteral
  | .emptyExpression => none
  | .arrayLiteral => p.arrayLiterals[i]?.map .arrayLiteral
  | .objectLiteral => p.objectLiterals[i]?.map .objectLiteral
  | .objectProperty => p.objectProperties[i]?.map .objectProperty
  | .block => p.blocks[i]?.map .block
  | .expressionStatement => p.expressionStatements[i]?.map .expressionStatement
  | .emptyStatement => none
  | .ifStatement => p.ifStatements[i]?.map .ifStatement
  | .tryStatement => p.tryStatements[i]?.map .tryStatement
  | .catchClause => p.catchClauses[i]?.map .catchClause
  | .forInLoop => p.forInLoops[i]?.map .forInLoop
  | .doLoop => p.doLoops[i]?.map .doLoop
  | .whileLoop => p.whileLoops[i]?.map .whileLoop

/-- The number of places in the pool of a kind. -/
def size (p : Pools) : Kind → Nat
  | .name => p.names.size
  | .numberLiteral => p.numberLiterals.size
  | .stringLiteral => p.stringLiterals.size
  | .keywordLiteral => p.keywordLiterals.size
  | .emptyExpression => 0
  | .arrayLiteral => p.arrayLiterals.size
  | .objectLiteral => p.objectLiterals.size
  | .objectProperty => p.objectProperties.size
  | .block => p.blocks.size
  | .expressionStatement => p.expressionStatements.size
  | .emptyStatement => 0
  | .ifStatement => p.ifStatements.size
  | .tryStatement => p.tryStatements.size
  | .catchClause => p.catchClauses.size
  | .forInLoop => p.forInLoops.size
  | .doLoop => p.doLoops.size
  | .whileLoop => p.whileLoops.size

/-- The pools with contents added at the end of the pool of their kind. -/
def push (p : Pools) : Contents → Pools
  | .name c => { p with names := p.names.push c }
  | .numberLiteral c => { p with numberLiterals := p.numberLiterals.push c }
  | .stringLiteral c => { p with stringLiterals := p.stringLiterals.push c }
  | .keywordLiteral c => { p with keywordLiterals := p.keywordLiterals.push c }
  | .arrayLiteral c => { p with arrayLiterals := p.arrayLiterals.push c }
  | .objectLiteral c => { p with objectLiterals := p.objectLiterals.push c }
  | .objectProperty c => { p with objectProperties := p.objectProperties.push c }
  | .block c => { p with blocks := p.blocks.push c }
  | .expressionStatement c => { p with expressionStatements := p.expressionStatements.push c }
  | .ifStatement c => { p with ifStatements := p.ifStatements.push c }
  | .tryStatement c => { p with tryStatements := p.tryStatements.push c }
  | .catchClause c => { p with catchClauses := p.catchClauses.push c }
  | .forInLoop c => { p with forInLoops := p.forInLoops.push c }
  | .doLoop c => { p with doLoops := p.doLoops.push c }
  | .whileLoop c => { p with whileLoops := p.whileLoops.push c }

/-- The pools with other contents at a place of the pool of their kind, if there is such a place. -/
def set (p : Pools) (i : Nat) : Contents → Pools
  | .name c => { p with names := p.names.setIfInBounds i c }
  | .numberLiteral c => { p with numberLiterals := p.numberLiterals.setIfInBounds i c }
  | .stringLiteral c => { p with stringLiterals := p.stringLiterals.setIfInBounds i c }
  | .keywordLiteral c => { p with keywordLiterals := p.keywordLiterals.setIfInBounds i c }
  | .arrayLiteral c => { p with arrayLiterals := p.arrayLiterals.setIfInBounds i c }
  | .objectLiteral c => { p with objectLiterals := p.objectLiterals.setIfInBounds i c }
  | .objectProperty c => { p with objectProperties := p.objectProperties.setIfInBounds i c }
  | .block c => { p with blocks := p.blocks.setIfInBounds i c }
  | .expressionStatement c =>
    { p with expressionStatements := p.expressionStatements.setIfInBounds i c }
  | .ifStatement c => { p with ifStatements := p.ifStatements.setIfInBounds i c }
  | .tryStatement c => { p with tryStatements := p.tryStatements.setIfInBounds i c }
  | .catchClause c => { p with catchClauses := p.catchClauses.setIfInBounds i c }
  | .forInLoop c => { p with forInLoops := p.forInLoops.setIfInBounds i c }
  | .doLoop c => { p with doLoops := p.doLoops.setIfInBounds i c }
  | .whileLoop c => { p with whileLoops := p.whileLoops.setIfInBounds i c }

/-! ## The view -/

/-- The pool of a kind holds contents of that kind. -/
theorem kind_of_get? {p : Pools} {k : Kind} {i : Nat} {c : Contents} (h : p.get? k i = some c) :
    c.kind = k := by
  cases k <;> simp only [get?, Option.map_eq_some_iff, reduceCtorEq] at h <;>
    obtain ⟨_, _, rfl⟩ := h <;> rfl

/-- The places of a pool are the numbers below its size. -/
theorem isSome_get?_iff {p : Pools} {k : Kind} {i : Nat} :
    (p.get? k i).isSome ↔ i < p.size k := by
  cases k <;> simp [get?, size]

/-- What was added is found behind all that was there. -/
theorem get?_push (p : Pools) (c : Contents) (k : Kind) (i : Nat) :
    (p.push c).get? k i =
      if k = c.kind ∧ i = p.size k then some c else p.get? k i := by
  cases c <;> cases k <;> simp [get?, push, size, Contents.kind, Array.getElem?_push] <;>
    split <;> simp_all

/-- What was written is found at its place, and the rest as before. -/
theorem get?_set (p : Pools) (j : Nat) (c : Contents) (k : Kind) (i : Nat) :
    (p.set j c).get? k i =
      if k = c.kind ∧ i = j ∧ j < p.size k then some c else p.get? k i := by
  cases c <;> cases k <;> simp [get?, set, size, Contents.kind, Array.getElem?_setIfInBounds] <;>
    split <;> simp_all [eq_comm]

/-- Adding contents makes the pool of their kind longer by one. -/
theorem size_push (p : Pools) (c : Contents) (k : Kind) :
    (p.push c).size k = p.size k + if k = c.kind then 1 else 0 := by
  cases c <;> cases k <;> simp [push, size, Contents.kind]

/-- Writing never makes a pool longer. -/
@[simp] theorem size_set (p : Pools) (i : Nat) (c : Contents) (k : Kind) :
    (p.set i c).size k = p.size k := by
  cases c <;> cases k <;> simp [set, size]

end Pools

end SyntaxForest
