import SyntaxForest.Proofs.Texts

/-!
# What is printed for each kind of node

One rule for each kind with children, from what is printed for the children to what is printed for
the node, under whatever options.  A rule says which children have to be there and at what depth
each of them is printed: at that of its slot, and no child stands in two slots.  A part that can be
left out is printed as nothing or behind a word (`Printer.PrintsOptional`).

The rules end with the characters that are written.  Those who use a rule compare them with source
as they know it, be it the phrases of a grammar or lines.
-/

namespace SyntaxForest

namespace Printer

open Recipe

/-- What is printed for a part that can be left out: nothing where the link is empty, and otherwise
the text of the child behind the word that announces it. -/
inductive PrintsOptional (texts : PrintJob → Except TreeError String) (x : Link) (depth : Nat)
    (wrap : String → String) : String → Prop where
  | absent (h : x = none) : PrintsOptional texts x depth wrap ""
  | present {written : List Char} (h : Prints texts x depth written) :
    PrintsOptional texts x depth wrap (wrap (String.ofList written))

variable {f : Forest} {o : PrinterOptions} {texts : PrintJob → Except TreeError String}
  (htexts : (assembly f o).Recursive texts) {x : Link} {depth : Nat} {written : List Char}
include htexts

/-! ## Expressions -/

/-- An array literal is printed as its elements between brackets. -/
theorem prints_array {c : Contents.ArrayLiteral} (hc : f.contents? x = some (.arrayLiteral c))
    {parts : List String} (elements : PrintsAll texts 0 c.elements parts)
    (spells : (o.indent depth ++ "[" ++ joined f c.elements parts ++ "]").toList = written) :
    Prints texts x depth written := by
  refine prints_of_gives htexts hc (fun y _ => ?_) spells
  have inside : Gives (lookBelow f texts .arrayLiteral y depth) (Printer.elements f c.elements)
      (joined f c.elements parts) := gives_elements elements
  apply inside.bind
  exact .pure _

/-- An object literal is printed as its elements between braces. -/
theorem prints_object {c : Contents.ObjectLiteral} (hc : f.contents? x = some (.objectLiteral c))
    {parts : List String} (elements : PrintsAll texts 0 c.elements parts)
    (spells : (o.indent depth ++ "\x7b" ++ joined f c.elements parts ++ "\x7d").toList = written) :
    Prints texts x depth written := by
  refine prints_of_gives htexts hc (fun y _ => ?_) spells
  have inside : Gives (lookBelow f texts .objectLiteral y depth) (Printer.elements f c.elements)
      (joined f c.elements parts) := gives_elements elements
  apply inside.bind
  exact .pure _

/-- A property is printed as its key and its value with a colon between them; both have to be
there. -/
theorem prints_property {c : Contents.ObjectProperty}
    (hc : f.contents? x = some (.objectProperty c)) {key value : List Char}
    (left : Prints texts c.left 0 key) (right : Prints texts c.right 0 value)
    (spells : (o.indent depth ++ String.ofList key ++ ": " ++ String.ofList value).toList =
      written) : Prints texts x depth written := by
  refine prints_of_gives htexts hc (fun y _ => ?_) spells
  have foundKey : lookBelow f texts .objectProperty y depth c.left = .ok (String.ofList key) :=
    left.look fun _ _ => rfl
  have foundValue : lookBelow f texts .objectProperty y depth c.right =
      .ok (String.ofList value) := right.look fun _ _ => rfl
  apply Gives.require left.isSome
  apply Gives.require right.isSome
  apply (Gives.take foundKey).bind
  apply (Gives.take foundValue).bind
  exact .pure _

/-! ## Statements -/

/-- A block is printed as its statements in lines of their own, one deeper, between the lines of
its braces. -/
theorem prints_block {c : Contents.Block} (hc : f.contents? x = some (.block c))
    {parts : List String} (statements : PrintsAll texts (depth + 1) c.statements parts)
    (spells : (o.indent depth ++ "\x7b" ++ o.newlineText ++ concat parts ++ o.indent depth ++
      "\x7d" ++ o.newlineText).toList = written) : Prints texts x depth written := by
  refine prints_of_gives htexts hc (fun y _ => ?_) spells
  have found : Gives (lookBelow f texts .block y depth) (takeAll c.statements) parts :=
    .takeAll statements
  apply found.bind
  exact .pure _

/-- An expression statement is printed as its expression with a semicolon.  The expression stands at
the depth of the statement and writes the indentation itself. -/
theorem prints_expressionStatement {c : Contents.ExpressionStatement}
    (hc : f.contents? x = some (.expressionStatement c)) {e : List Char}
    (expression : Prints texts c.expression depth e)
    (spells : (String.ofList e ++ ";" ++ o.newlineText).toList = written) :
    Prints texts x depth written := by
  refine prints_of_gives htexts hc (fun y _ => ?_) spells
  have found : lookBelow f texts .expressionStatement y depth c.expression =
      .ok (String.ofList e) := expression.look fun _ _ => rfl
  apply (Gives.takeRequired expression.isSome found).bind
  exact .pure _

section

variable (hf : f.Linked) {c : Contents.IfStatement} (hc : f.contents? x = some (.ifStatement c))
  {test branch branch' : List Char} (condition : Prints texts c.condition 0 test)
  (thenPart : Prints texts c.thenPart depth branch)
include hf hc condition thenPart

/-- A conditional without an else part: condition and branch, and the branch stands in the line of
the head exactly where it is a block. -/
theorem prints_conditional (absent : c.elsePart = none)
    (spells : (o.indent depth ++ "if (" ++ String.ofList test ++ ") " ++
      (if isBlock f c.thenPart then "" else o.newlineText ++ o.indent (depth + 1)) ++
      trim (String.ofList branch) ++ o.newlineText).toList = written) :
    Prints texts x depth written := by
  refine prints_of_gives htexts hc (fun y hy => ?_) spells
  have foundTest : lookBelow f texts .ifStatement y depth c.condition = .ok (String.ofList test) :=
    condition.inSlot hf hc hy .condition rfl
  have foundBranch : lookBelow f texts .ifStatement y depth c.thenPart =
      .ok (String.ofList branch) := thenPart.inSlot hf hc hy .thenPart rfl
  apply Gives.require condition.isSome
  apply Gives.require thenPart.isSome
  apply (Gives.take foundTest).bind
  apply (Gives.take foundBranch).bind
  apply Gives.optional_none absent
  exact .pure _

/-- A conditional with an else part.  Behind a then part that is no block the word stands in a line
of its own, and an else part that is a conditional again stays in the line of the word. -/
theorem prints_alternative (elsePart : Prints texts c.elsePart depth branch')
    (spells : (o.indent depth ++ "if (" ++ String.ofList test ++ ") " ++
      (if isBlock f c.thenPart then "" else o.newlineText ++ o.indent (depth + 1)) ++
      trim (String.ofList branch) ++
      (if isBlock f c.thenPart then " else " else o.newlineText ++ o.indent depth ++ "else ") ++
      (if isBlock f c.elsePart || f.kind? c.elsePart == some .ifStatement then ""
        else o.newlineText ++ o.indent (depth + 1)) ++
      trim (String.ofList branch') ++ o.newlineText).toList = written) :
    Prints texts x depth written := by
  refine prints_of_gives htexts hc (fun y hy => ?_) spells
  have foundTest : lookBelow f texts .ifStatement y depth c.condition = .ok (String.ofList test) :=
    condition.inSlot hf hc hy .condition rfl
  have foundBranch : lookBelow f texts .ifStatement y depth c.thenPart =
      .ok (String.ofList branch) := thenPart.inSlot hf hc hy .thenPart rfl
  have foundElse : lookBelow f texts .ifStatement y depth c.elsePart =
      .ok (String.ofList branch') := elsePart.inSlot hf hc hy .elsePart rfl
  apply Gives.require condition.isSome
  apply Gives.require thenPart.isSome
  apply (Gives.take foundTest).bind
  apply (Gives.take foundBranch).bind
  apply Gives.optional_some elsePart.isSome
  apply (Gives.take foundElse).bind
  exact .pure _

end

/-- A `try` is printed as its block, its handlers and its last block in one run of lines: what
follows the first brace stands behind the brace before it, and so each part is trimmed. -/
theorem prints_attempt {c : Contents.TryStatement} (hc : f.contents? x = some (.tryStatement c))
    {body : List Char} (tryBlock : Prints texts c.tryBlock depth body) {parts : List String}
    (handlers : PrintsAll texts depth c.catchClauses parts) {last : String}
    (finallyBlock : PrintsOptional texts c.finallyBlock depth (" finally " ++ trim ·) last)
    (spells : (o.indent depth ++ "try " ++ trim (String.ofList body) ++
      concat (parts.map fun text => " " ++ trim text) ++ last ++ o.newlineText).toList = written) :
    Prints texts x depth written := by
  refine prints_of_gives htexts hc (fun y _ => ?_) spells
  have foundBody : lookBelow f texts .tryStatement y depth c.tryBlock = .ok (String.ofList body) :=
    tryBlock.look fun _ _ => rfl
  have foundHandlers : Gives (lookBelow f texts .tryStatement y depth) (takeAll c.catchClauses)
      parts := .takeAll handlers
  apply (Gives.takeRequired tryBlock.isSome foundBody).bind
  apply foundHandlers.bind
  cases finallyBlock with
  | absent empty =>
    apply Gives.optional_none empty
    exact .pure _
  | @present lastly h =>
    have foundLast : lookBelow f texts .tryStatement y depth c.finallyBlock =
        .ok (String.ofList lastly) := h.look fun _ _ => rfl
    apply Gives.optional_some h.isSome
    apply (Gives.take foundLast).bind
    exact .pure _

variable (hf : f.Linked)
include hf

/-- A handler is printed as its parameter, the guard behind it where there is one, and its body. -/
theorem prints_catchClause {c : Contents.CatchClause} (hc : f.contents? x = some (.catchClause c))
    {parameter : List Char} (varName : Prints texts c.varName 0 parameter) {test : String}
    (guard : PrintsOptional texts c.guard 0 (" if " ++ ·) test) {handler : List Char}
    (body : Prints texts c.body depth handler)
    (spells : (o.indent depth ++ "catch (" ++ String.ofList parameter ++ test ++ ") " ++
      trim (String.ofList handler) ++ o.newlineText).toList = written) :
    Prints texts x depth written := by
  refine prints_of_gives htexts hc (fun y hy => ?_) spells
  have foundName : lookBelow f texts .catchClause y depth c.varName =
      .ok (String.ofList parameter) := varName.inSlot hf hc hy .varName rfl
  have foundBody : lookBelow f texts .catchClause y depth c.body = .ok (String.ofList handler) :=
    body.inSlot hf hc hy .handlerBody rfl
  apply Gives.require varName.isSome
  apply Gives.require body.isSome
  apply (Gives.take foundName).bind
  -- the text of the guard is bound in both cases, as the empty text where there is no guard
  cases guard with
  | absent empty =>
    apply Gives.optional_none empty
    apply (Gives.pure "").bind
    apply (Gives.take foundBody).bind
    exact .pure _
  | @present condition h =>
    have foundGuard : lookBelow f texts .catchClause y depth c.guard =
        .ok (String.ofList condition) := h.inSlot hf hc hy .guard rfl
    apply Gives.optional_some h.isSome
    apply (Gives.take foundGuard).bind
    apply (Gives.pure _).bind
    apply (Gives.take foundBody).bind
    exact .pure _

/-! ## Loops -/

omit htexts hf in
/-- The body of a loop: in the line of the head where it is a block, and in lines of its own, at the
depth where it was printed, where it is not. -/
theorem gives_loopBody {look : Link → Except TreeError String} {kind : Kind} {body : Link}
    {lines : List Char} (present : body.isSome) (found : look body = .ok (String.ofList lines)) :
    Gives look (loopBody f o kind body)
      (if isBlock f body then trim (String.ofList lines) ++ o.newlineText
        else o.newlineText ++ String.ofList lines) := by
  apply (Gives.takeRequired present found).bind
  exact .pure _

/-- A `for in` is printed as its iterator, the object it runs over and the body. -/
theorem prints_forIn {c : Contents.ForInLoop} (hc : f.contents? x = some (.forInLoop c))
    {name range lines : List Char} (iterator : Prints texts c.iterator 0 name)
    (object : Prints texts c.iteratedObject 0 range)
    (body : Prints texts c.loop.body (if isBlock f c.loop.body then depth else depth + 1) lines)
    (spells : (o.indent depth ++ "for " ++ (if c.isForEach then "each " else "") ++ "(" ++
      String.ofList name ++ " in " ++ String.ofList range ++ ") " ++
      (if isBlock f c.loop.body then trim (String.ofList lines) ++ o.newlineText
        else o.newlineText ++ String.ofList lines)).toList = written) :
    Prints texts x depth written := by
  refine prints_of_gives htexts hc (fun y hy => ?_) spells
  have foundName : lookBelow f texts .forInLoop y depth c.iterator = .ok (String.ofList name) :=
    iterator.inSlot hf hc hy .iterator rfl
  have foundRange : lookBelow f texts .forInLoop y depth c.iteratedObject =
      .ok (String.ofList range) := object.inSlot hf hc hy .iteratedObject rfl
  have foundBody : lookBelow f texts .forInLoop y depth c.loop.body = .ok (String.ofList lines) :=
    body.inSlot hf hc hy .body rfl
  apply Gives.require iterator.isSome
  apply Gives.require object.isSome
  apply (Gives.take foundName).bind
  apply (Gives.take foundRange).bind
  apply (gives_loopBody body.isSome foundBody).bind
  exact .pure _

/-- A `do` loop is printed as its body, in the line of the word whatever it is, and the condition
behind it. -/
theorem prints_doWhile {c : Contents.DoLoop} (hc : f.contents? x = some (.doLoop c))
    {lines test : List Char} (body : Prints texts c.loop.body depth lines)
    (condition : Prints texts c.condition 0 test)
    (spells : (o.indent depth ++ "do " ++ trim (String.ofList lines) ++ " while (" ++
      String.ofList test ++ ");" ++ o.newlineText).toList = written) :
    Prints texts x depth written := by
  refine prints_of_gives htexts hc (fun y hy => ?_) spells
  have foundBody : lookBelow f texts .doLoop y depth c.loop.body = .ok (String.ofList lines) :=
    body.inSlot hf hc hy .body rfl
  have foundTest : lookBelow f texts .doLoop y depth c.condition = .ok (String.ofList test) :=
    condition.inSlot hf hc hy .condition rfl
  apply Gives.require body.isSome
  apply Gives.require condition.isSome
  apply (Gives.take foundBody).bind
  apply (Gives.take foundTest).bind
  exact .pure _

/-- A `while` loop is printed as its condition and its body. -/
theorem prints_whileDo {c : Contents.WhileLoop} (hc : f.contents? x = some (.whileLoop c))
    {test lines : List Char} (condition : Prints texts c.condition 0 test)
    (body : Prints texts c.loop.body (if isBlock f c.loop.body then depth else depth + 1) lines)
    (spells : (o.indent depth ++ "while (" ++ String.ofList test ++ ") " ++
      (if isBlock f c.loop.body then trim (String.ofList lines) ++ o.newlineText
        else o.newlineText ++ String.ofList lines)).toList = written) :
    Prints texts x depth written := by
  refine prints_of_gives htexts hc (fun y hy => ?_) spells
  have foundTest : lookBelow f texts .whileLoop y depth c.condition = .ok (String.ofList test) :=
    condition.inSlot hf hc hy .condition rfl
  have foundBody : lookBelow f texts .whileLoop y depth c.loop.body = .ok (String.ofList lines) :=
    body.inSlot hf hc hy .body rfl
  apply (Gives.takeRequired condition.isSome foundTest).bind
  apply (gives_loopBody body.isSome foundBody).bind
  exact .pure _

end Printer

end SyntaxForest
