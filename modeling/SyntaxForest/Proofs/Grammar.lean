import SyntaxForest.Proofs.Lexemes

/-!
# A grammar of printed source

The programs that printed source stands for, and how each is written.  Expressions are written in
one line.  Statements are written over several lines, and how depends on the depth of indentation;
`Statement.core` is a statement without the blanks in front and the line break behind, as it stands
after a word in the same line.

Some statements end in a way that lets something behind them be taken for a part of them.  An `if`
without `else` would take an `else` (`TakesElse`), and a `try` without `finally` would take a
handler (`TakesHandler`); and so would whatever ends with one of these.  In a `Clear` program
nothing that could be taken stands behind such a statement.  Braces are what hides the end of a
statement, so a program is clear where its branches and its guarded parts are blocks.
-/

namespace SyntaxForest

namespace Grammar

/-! ## Expressions -/

mutual

/-- An expression. -/
inductive Expression where
  | word (word : Word)
  | string (quote : Quote) (value : List Char)
  | array (elements : Elements)
  | object (elements : Elements)

/-- What stands between the brackets of a literal. -/
inductive Elements where
  | nil
  /-- An element that is left out. -/
  | elision (rest : Elements)
  | element (element : Expression) (rest : Elements)
  | property (key value : Expression) (rest : Elements)

end

/-- Whether there are no more elements. -/
def Elements.isNil : Elements → Bool
  | nil => true
  | _ => false

mutual

/-- How an expression is written. -/
def Expression.text : Expression → List Char
  | .word w => w.chars
  | .string quote value => quote.around value
  | .array elements => '[' :: elements.text ']'
  | .object elements => '\x7b' :: elements.text '\x7d'

/-- How the elements of a literal are written, up to its closing bracket.  An elision at the end
needs a comma more. -/
def Elements.text : Elements → Char → List Char
  | .nil, close => [close]
  | .elision rest, close =>
    ',' :: if rest.isNil then [close] else ' ' :: rest.text close
  | .element element rest, close =>
    element.text ++ if rest.isNil then [close] else ',' :: ' ' :: rest.text close
  | .property key value rest, close =>
    key.text ++ ':' :: ' ' :: (value.text ++
      if rest.isNil then [close] else ',' :: ' ' :: rest.text close)

end

/-! ## Statements -/

mutual

/-- A statement. -/
inductive Statement where
  | block (body : Statements)
  | expression (expression : Expression)
  | empty
  | conditional (test : Expression) (thenPart : Statement)
  | alternative (test : Expression) (thenPart elsePart : Statement)
  | attempt (body : Statement) (handlers : Handlers)
  | forIn (isForEach : Bool) (iterator object : Expression) (body : Statement)
  | doWhile (body : Statement) (test : Expression)
  | whileDo (test : Expression) (body : Statement)

/-- The statements of a block. -/
inductive Statements where
  | nil
  | cons (first : Statement) (rest : Statements)

/-- What stands behind a guarded block: its handlers, and what is done in every case. -/
inductive Handlers where
  | done
  | final (body : Statement)
  | handler (parameter : Expression) (guard : Option Expression) (body : Statement)
      (rest : Handlers)

end

/-- The kind of the node that a statement is printed from. -/
def Statement.kind : Statement → Kind
  | block _ => .block
  | expression _ => .expressionStatement
  | empty => .emptyStatement
  | conditional _ _ => .ifStatement
  | alternative _ _ _ => .ifStatement
  | attempt _ _ => .tryStatement
  | forIn _ _ _ _ => .forInLoop
  | doWhile _ _ => .doLoop
  | whileDo _ _ => .whileLoop

/-- The blanks in front of a line. -/
def pad (depth : Nat) : List Char := List.replicate (4 * depth) ' '

/-- The start of a line of its own, one level deeper. -/
def ownLine (depth : Nat) : List Char := '\n' :: pad (depth + 1)

/-- An `else` in a new line. -/
def elseLine (depth : Nat) : List Char := '\n' :: (pad depth ++ ['e', 'l', 's', 'e', ' '])

/-- An `else` in the line of a block. -/
def elseWord : List Char := [' ', 'e', 'l', 's', 'e', ' ']

/-- The start of a handler behind a guarded block. -/
def catchWord : List Char := [' ', 'c', 'a', 't', 'c', 'h', ' ', '(']

/-- The start of what is done in every case. -/
def finallyWord : List Char := [' ', 'f', 'i', 'n', 'a', 'l', 'l', 'y', ' ']

/-- What stands behind the start of a handler, up to its body. -/
def clauseHead (parameter : Expression) (guard : Option Expression) : List Char :=
  parameter.text ++ ((guard.elim [] fun g => [' ', 'i', 'f', ' '] ++ g.text) ++ [')', ' '])

mutual

/-- How a statement is written at a depth, from its first character to its last. -/
def Statement.core : Statement → Nat → List Char
  | .block body, depth => ['\x7b', '\n'] ++ (body.lines (depth + 1) ++ (pad depth ++ ['\x7d']))
  | .expression e, _ => e.text ++ [';']
  | .empty, _ => [';']
  -- A branch in a line of its own has its first line indented, but not the others: it is written
  -- at the depth of the `if`, unlike the body of a loop.
  | .conditional test thenPart, depth =>
    ['i', 'f', ' ', '('] ++ (test.text ++ ([')', ' '] ++
      ((if thenPart.kind = .block then [] else ownLine depth) ++ thenPart.core depth)))
  | .alternative test thenPart elsePart, depth =>
    ['i', 'f', ' ', '('] ++ (test.text ++ ([')', ' '] ++
      ((if thenPart.kind = .block then [] else ownLine depth) ++ (thenPart.core depth ++
        ((if thenPart.kind = .block then elseWord else elseLine depth) ++
          ((if elsePart.kind = .block ∨ elsePart.kind = .ifStatement then [] else ownLine depth) ++
            elsePart.core depth))))))
  | .attempt body handlers, depth =>
    ['t', 'r', 'y', ' '] ++ (body.core depth ++ handlers.text depth)
  | .forIn isForEach iterator object body, depth =>
    ['f', 'o', 'r', ' '] ++ ((if isForEach then ['e', 'a', 'c', 'h', ' '] else []) ++ (['('] ++
      (iterator.text ++ ([' ', 'i', 'n', ' '] ++ (object.text ++ ([')', ' '] ++
        if body.kind = .block then body.core depth
        else ownLine depth ++ body.core (depth + 1)))))))
  | .doWhile body test, depth =>
    ['d', 'o', ' '] ++ (body.core depth ++ ([' ', 'w', 'h', 'i', 'l', 'e', ' ', '('] ++
      (test.text ++ [')', ';'])))
  | .whileDo test body, depth =>
    ['w', 'h', 'i', 'l', 'e', ' ', '('] ++ (test.text ++ ([')', ' '] ++
      if body.kind = .block then body.core depth else ownLine depth ++ body.core (depth + 1)))

/-- How the statements of a block are written, each in lines of its own. -/
def Statements.lines : Statements → Nat → List Char
  | .nil, _ => []
  | .cons first rest, depth => pad depth ++ (first.core depth ++ ('\n' :: rest.lines depth))

/-- How handlers are written, all in the lines of the block that they belong to. -/
def Handlers.text : Handlers → Nat → List Char
  | .done, _ => []
  | .final body, depth => finallyWord ++ body.core depth
  | .handler parameter guard body rest, depth =>
    catchWord ++ (clauseHead parameter guard ++ (body.core depth ++ rest.text depth))

end

/-! ## What a statement would take -/

mutual

/-- An `else` in a new line would be taken for a part of the statement. -/
def Statement.TakesElse : Statement → Prop
  | .conditional _ thenPart => thenPart.kind ≠ .block
  | .alternative _ _ elsePart => elsePart.TakesElse
  | .attempt body handlers => handlers.TakesElse body.TakesElse
  | .block _ | .expression _ | .empty | .forIn _ _ _ _ | .doWhile _ _ | .whileDo _ _ => False

/-- The same for the last handler, or what is said of the body if there is none. -/
def Handlers.TakesElse : Handlers → Prop → Prop
  | .done, ofBody => ofBody
  | .final body, _ => body.TakesElse
  | .handler _ _ body rest, _ => rest.TakesElse body.TakesElse

end

mutual

/-- A handler would be taken for a part of the statement. -/
def Statement.TakesHandler : Statement → Prop
  | .conditional _ thenPart => thenPart.TakesHandler
  | .alternative _ _ elsePart => elsePart.TakesHandler
  | .attempt _ handlers => handlers.TakesHandler
  | .forIn _ _ _ body => body.TakesHandler
  | .whileDo _ body => body.TakesHandler
  | .block _ | .expression _ | .empty | .doWhile _ _ => False

/-- A handler would be taken for one more, unless there is a part for every case. -/
def Handlers.TakesHandler : Handlers → Prop
  | .done => True
  | .final body => body.TakesHandler
  | .handler _ _ _ rest => rest.TakesHandler

end

mutual

/-- Nothing in the statement stands behind a part that would take it. -/
def Statement.Clear : Statement → Prop
  | .block body => body.Clear
  | .conditional _ thenPart => thenPart.Clear
  | .alternative _ thenPart elsePart => ¬ thenPart.TakesElse ∧ thenPart.Clear ∧ elsePart.Clear
  | .attempt body handlers => body.Clear ∧ handlers.Clear body.TakesHandler
  | .forIn _ _ _ body => body.Clear
  | .doWhile body _ => body.Clear
  | .whileDo _ body => body.Clear
  | .expression _ | .empty => True

def Statements.Clear : Statements → Prop
  | .nil => True
  | .cons first rest => first.Clear ∧ rest.Clear

/-- The same for handlers behind a part that may take handlers. -/
def Handlers.Clear : Handlers → Prop → Prop
  | .done, _ => True
  | .final body, taken => ¬ taken ∧ body.Clear
  | .handler _ _ body rest, taken => ¬ taken ∧ body.Clear ∧ rest.Clear body.TakesHandler

end

end Grammar

end SyntaxForest
