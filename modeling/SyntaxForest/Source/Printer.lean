import SyntaxForest.Assembly
import SyntaxForest.Forest.Walk
import SyntaxForest.Source.Options
import SyntaxForest.Text.Blank
import SyntaxForest.Text.Quoted

/-!
# Printing source

The source text of a tree.  Each node is printed at a depth of indentation and says at which depth
its children are printed (`childDepth`); its own text is a recipe over theirs (`recipe`).  A child
that stands behind a word on the same line is trimmed, so that it prints the same wherever it
stands.
-/

namespace SyntaxForest

/-- A node to print, and the depth to print it at. -/
structure PrintJob where
  node : NodeIndex
  depth : Nat
  deriving DecidableEq, Repr

namespace Printer

variable (f : Forest) (o : PrinterOptions)

/-- Whether a link names a block. -/
def isBlock (x : Link) : Bool := f.kind? x == some .block

/-- The depth at which a node of a given kind at some depth prints a child.  What stands inside a
line is at depth zero. -/
def childDepth (kind : Kind) (node child : NodeIndex) (depth : Nat) : Nat :=
  match kind with
  | .block => depth + 1
  | .expressionStatement | .tryStatement => depth
  | .ifStatement => if f.child node .condition = child then 0 else depth
  | .catchClause => if f.child node .handlerBody = child then depth else 0
  | .doLoop => if f.child node .body = child then depth else 0
  | .forInLoop | .whileLoop =>
    if f.child node .body = child then if isBlock f child then depth else depth + 1 else 0
  | _ => 0

/-- Texts one after the other. -/
def concat (texts : List String) : String := texts.foldl (· ++ ·) ""

/-- Whether a list ends with an elision. -/
def endsWithElision (items : List Link) : Bool :=
  match items.getLast? with
  | some last => f.kind? last == some .emptyExpression
  | none => false

/-- Elements with commas between them.  An elision at the end needs a comma more: `[1, ]` has one
element, `[1, , ]` has two. -/
def elements (items : List Link) : Recipe String String := do
  let texts ← Recipe.takeAll items
  return String.intercalate ", " texts ++ if endsWithElision f items then "," else ""

/-- The body of a loop behind its head: a block goes on in the same line, anything else stands in
lines of its own. -/
def loopBody (kind : Kind) (body : Link) : Recipe String String := do
  let text ← Recipe.takeRequired kind .body body
  return if isBlock f body then trim text ++ o.newlineText else o.newlineText ++ text

/-- A condition with its branches.  A branch that is a block goes on in the same line, and so does
a condition behind `else`; other branches stand in lines of their own. -/
def ifStatement (c : Contents.IfStatement) (depth : Nat) : Recipe String String := do
  Recipe.require .ifStatement .condition c.condition
  Recipe.require .ifStatement .thenPart c.thenPart
  let ownLine := o.newlineText ++ o.indent (depth + 1)
  let condition ← Recipe.take c.condition
  let thenPart ← Recipe.take c.thenPart
  let head := o.indent depth ++ "if (" ++ condition ++ ") " ++
    (if isBlock f c.thenPart then "" else ownLine) ++ trim thenPart
  if c.elsePart.isNone then return head ++ o.newlineText
  let elsePart ← Recipe.take c.elsePart
  return head ++
    (if isBlock f c.thenPart then " else " else o.newlineText ++ o.indent depth ++ "else ") ++
    (if isBlock f c.elsePart || f.kind? c.elsePart == some .ifStatement then "" else ownLine) ++
    trim elsePart ++ o.newlineText

/-- A guarded block with all its handlers. -/
def tryStatement (c : Contents.TryStatement) (depth : Nat) : Recipe String String := do
  let tryBlock ← Recipe.takeRequired .tryStatement .tryBlock c.tryBlock
  let handlers ← Recipe.takeAll c.catchClauses
  let last ←
    if c.finallyBlock.isNone then pure ""
    else do pure (" finally " ++ trim (← Recipe.take c.finallyBlock))
  return o.indent depth ++ "try " ++ trim tryBlock ++
    concat (handlers.map fun text => " " ++ trim text) ++ last ++ o.newlineText

/-- A handler, with its guard if it has one. -/
def catchClause (c : Contents.CatchClause) (depth : Nat) : Recipe String String := do
  Recipe.require .catchClause .varName c.varName
  Recipe.require .catchClause .handlerBody c.body
  let varName ← Recipe.take c.varName
  let guard ←
    if c.guard.isNone then pure "" else do pure (" if " ++ (← Recipe.take c.guard))
  let body ← Recipe.take c.body
  return o.indent depth ++ "catch (" ++ varName ++ guard ++ ") " ++ trim body ++ o.newlineText

/-- A loop over an object. -/
def forInLoop (c : Contents.ForInLoop) (depth : Nat) : Recipe String String := do
  Recipe.require .forInLoop .iterator c.iterator
  Recipe.require .forInLoop .iteratedObject c.iteratedObject
  let iterator ← Recipe.take c.iterator
  let object ← Recipe.take c.iteratedObject
  let body ← loopBody f o .forInLoop c.loop.body
  return o.indent depth ++ "for " ++ (if c.isForEach then "each " else "") ++ "(" ++ iterator ++
    " in " ++ object ++ ") " ++ body

/-- A loop that tests behind its body. -/
def doLoop (c : Contents.DoLoop) (depth : Nat) : Recipe String String := do
  Recipe.require .doLoop .body c.loop.body
  Recipe.require .doLoop .condition c.condition
  let body ← Recipe.take c.loop.body
  let condition ← Recipe.take c.condition
  return o.indent depth ++ "do " ++ trim body ++ " while (" ++ condition ++ ");" ++ o.newlineText

/-- A loop that tests before its body. -/
def whileLoop (c : Contents.WhileLoop) (depth : Nat) : Recipe String String := do
  let condition ← Recipe.takeRequired .whileLoop .condition c.condition
  let body ← loopBody f o .whileLoop c.loop.body
  return o.indent depth ++ "while (" ++ condition ++ ") " ++ body

/-- The text of a node from its contents. -/
def ofContents (c : Contents) (depth : Nat) : Recipe String String :=
  match c with
  | .name c => return o.indent depth ++ c.identifier
  | .numberLiteral c =>
    match c.token with
    | some token => return o.indent depth ++ token
    | none => .fail (.missingRequiredChild .numberLiteral .token)
  | .stringLiteral c => return o.indent depth ++ quoted c.quote c.value
  | .keywordLiteral c => return o.indent depth ++ c.keyword.text
  | .arrayLiteral c => do return o.indent depth ++ "[" ++ (← elements f c.elements) ++ "]"
  | .objectLiteral c => do return o.indent depth ++ "\x7b" ++ (← elements f c.elements) ++ "\x7d"
  | .objectProperty c => do
    Recipe.require .objectProperty .left c.left
    Recipe.require .objectProperty .right c.right
    let left ← Recipe.take c.left
    let right ← Recipe.take c.right
    return o.indent depth ++ left ++ ": " ++ right
  | .block c => do
    let statements ← Recipe.takeAll c.statements
    let pad := o.indent depth
    return pad ++ "\x7b" ++ o.newlineText ++ concat statements ++ pad ++ "\x7d" ++ o.newlineText
  | .expressionStatement c => do
    let expression ← Recipe.takeRequired .expressionStatement .expression c.expression
    return expression ++ ";" ++ o.newlineText
  | .ifStatement c => ifStatement f o c depth
  | .tryStatement c => tryStatement o c depth
  | .catchClause c => catchClause o c depth
  | .forInLoop c => forInLoop f o c depth
  | .doLoop c => doLoop o c depth
  | .whileLoop c => whileLoop f o c depth

/-- The text of a node that has lost its contents.  Leaves and lists print as if they were empty,
statements with required children lack them, and the rest prints as nothing. -/
def ofBare (kind : Kind) (depth : Nat) : Recipe String String :=
  match kind with
  | .emptyStatement => return o.indent depth ++ ";" ++ o.newlineText
  | .numberLiteral => .fail (.missingRequiredChild .numberLiteral .token)
  | .arrayLiteral => return o.indent depth ++ "[]"
  | .objectLiteral => return o.indent depth ++ "\x7b\x7d"
  | .objectProperty => .fail (.missingRequiredChild kind (.child .left))
  | .block =>
    let pad := o.indent depth
    return pad ++ "\x7b" ++ o.newlineText ++ pad ++ "\x7d" ++ o.newlineText
  | .expressionStatement => .fail (.missingRequiredChild kind (.child .expression))
  | .ifStatement | .whileLoop => .fail (.missingRequiredChild kind (.child .condition))
  | .doLoop => .fail (.missingRequiredChild kind (.child .body))
  | .tryStatement | .catchClause | .forInLoop => return ""
  | .name | .stringLiteral | .keywordLiteral | .emptyExpression => return o.indent depth

/-- How the text of a node is made of those of its children. -/
def recipe (job : PrintJob) : Recipe String String :=
  match f.header? job.node with
  | none => .fail (.unknownNode job.node)
  | some h =>
    match f.held? h with
    | some c => ofContents f o c job.depth
    | none => ofBare o h.kind job.depth

/-- The children of a node, each with its depth. -/
def parts (job : PrintJob) : Except TreeError (List PrintJob) := do
  let h ← f.header job.node
  return (f.below job.node).map fun child =>
    ⟨child, childDepth f h.kind job.node child job.depth⟩

/-- Printing as an assembly of texts. -/
def assembly : Assembly String PrintJob where
  node := PrintJob.node
  parts := parts f
  recipe := recipe f o

end Printer

/-- The source text of a tree at a depth of indentation. -/
def Forest.print (f : Forest) (o : PrinterOptions) (root : Link) (depth : Nat) :
    Except TreeError String := do
  f.checkHeight root
  match root with
  | some x => (Printer.assembly f o).run f.size ⟨x, depth⟩
  | none => .error (.unknownNode none)

/-- The source text of a tree with the usual options, not indented. -/
def Forest.toSource (f : Forest) (root : Link) : Except TreeError String := f.print {} root 0

end SyntaxForest
