import SyntaxForest.Proofs.Dangling
import SyntaxForest.Proofs.SpelledAlike
import SyntaxForest.Proofs.SpelledStatements

/-!
# Source text determines the tree

A program that is printed becomes a phrase of the grammar (`Reached.exists_phrase`), clear phrases
that are written alike are one phrase (`Phrase.text_injective`), and two trees that spell one phrase
are the same (`Phrase.same_of_in`).  So trees in which nothing dangles are the same if they are
printed alike (`Reached.same_of_toSource_eq`).

Where something dangles this fails.  An `else` is printed behind a branch without braces around the
branch, and a handler behind a part of a `try` in the same way, so whose `else` or whose handler it
is does not show (`not_same_of_toSource_eq`, `not_same_of_toSource_eq_handlers`).
-/

namespace SyntaxForest

namespace Grammar

/-- What a program spells. -/
inductive Phrase where
  | expression (e : Expression)
  | statement (s : Statement)
  | clause (parameter : Expression) (guard : Option Expression) (body : Statement)

namespace Phrase

/-- How a program is written.  A statement or a handler ends its line. -/
def text : Phrase → List Char
  | expression e => e.text
  | statement s => s.core 0 ++ ['\n']
  | clause parameter guard body => Grammar.clause parameter guard body 0 ++ ['\n']

/-- Nothing in the phrase stands behind a part that would take it. -/
def Clear : Phrase → Prop
  | expression _ => True
  | statement s => s.Clear
  | clause _ _ body => body.Clear

/-- The phrase stands under a link. -/
def In (f : Forest) : Phrase → Link → Prop
  | expression e, x => e.In f x
  | statement s, x => s.In f x
  | clause parameter guard body, x => ∃ c, IsClause f x c parameter guard body

end Phrase

/-! ## Reading -/

/-- Nothing is taken from behind the end of a line if that is the end of the text. -/
theorem Statement.stops_end (s : Statement) (depth : Nat) : s.Stops depth ['\n'] :=
  .of_newline noElse_nil

/-- No statement starts like a handler. -/
theorem recognize_clause (parameter : Expression) (guard : Option Expression) (body : Statement)
    (depth : Nat) (rest : List Char) :
    recognize (clause parameter guard body depth ++ rest) = some .catchClause := rfl

theorem Statement.kind_ne_catchClause (s : Statement) : s.kind ≠ .catchClause := by
  cases s <;> nofun

/-- No statement is an expression, because it goes on. -/
theorem Expression.text_ne_core (e : Expression) (s : Statement) (depth : Nat) :
    e.text ≠ s.core depth ++ ['\n'] := by
  intro same
  have ends : Broken [] := rfl
  have kind := s.recognize_core depth ['\n']
  rw [← same, ← List.append_nil e.text, e.recognize_append ends (by simp)] at kind
  cases s with
  | expression e' =>
    rw [Statement.core, List.append_assoc, ← List.append_nil e.text] at same
    cases (e.readable ends (broken_cons rfl _) same).2
  | block | empty | conditional | alternative | attempt | forIn | doWhile | whileDo => cases kind

/-- No handler is an expression. -/
theorem Expression.text_ne_clause (e : Expression) (parameter : Expression)
    (guard : Option Expression) (body : Statement) (depth : Nat) :
    e.text ≠ clause parameter guard body depth ++ ['\n'] := by
  intro same
  have ends : Broken [] := rfl
  have kind := recognize_clause parameter guard body depth ['\n']
  rw [← same, ← List.append_nil e.text, e.recognize_append ends (by simp)] at kind
  cases kind

/-- No handler is a statement. -/
theorem Statement.core_ne_clause (s : Statement) (parameter : Expression)
    (guard : Option Expression) (body : Statement) (depth : Nat) :
    s.core depth ++ ['\n'] ≠ clause parameter guard body depth ++ ['\n'] := by
  intro same
  have kind := recognize_clause parameter guard body depth ['\n']
  rw [← same, s.recognize_core] at kind
  exact s.kind_ne_catchClause (Option.some.inj kind)

/-- **A text is read as one clear phrase.** -/
theorem Phrase.text_injective {p q : Phrase} (hp : p.Clear) (hq : q.Clear)
    (same : p.text = q.text) : p = q := by
  -- phrases of two sorts are told apart by how they start, or by whether they go on
  cases p with
  | expression e =>
    cases q with
    | expression e' =>
      have ends : Broken [] := rfl
      rw [text, text, ← List.append_nil e.text, ← List.append_nil e'.text] at same
      rw [(e.readable ends ends same).1]
    | statement s' => exact absurd same (e.text_ne_core s' 0)
    | clause parameter' guard' body' => exact absurd same (e.text_ne_clause _ _ _ 0)
  | statement s =>
    cases q with
    | expression e' => exact absurd same.symm (e'.text_ne_core s 0)
    | statement s' => rw [(s.readable same hp hq (s.stops_end 0) (s'.stops_end 0)).1]
    | clause parameter' guard' body' => exact absurd same (s.core_ne_clause _ _ _ 0)
  | clause parameter guard body =>
    cases q with
    | expression e' => exact absurd same.symm (e'.text_ne_clause _ _ _ 0)
    | statement s' => exact absurd same.symm (s'.core_ne_clause _ _ _ 0)
    | clause parameter' guard' body' =>
      simp only [text, Grammar.clause, List.append_assoc, List.append_cancel_left_eq] at same
      obtain ⟨rfl, rfl, behind⟩ := eq_of_clauseHead same
      rw [(body.readable behind hp hq (body.stops_end 0) (body'.stops_end 0)).1]

/-! ## What dangles is ambiguous -/

/-- An `else` behind a branch that would take it is written like an `else` of the branch. -/
theorem Statement.core_dangling_else (test test' : Expression) {t : Statement} (e : Statement)
    (open_ : t.kind ≠ .block) (depth : Nat) :
    (alternative test (conditional test' t) e).core depth =
      (conditional test (alternative test' t e)).core depth := by
  have outer : (conditional test' t).kind = .ifStatement := rfl
  have inner : (alternative test' t e).kind = .ifStatement := rfl
  simp [core, outer, inner, open_]

/-- Handlers behind a part that would take them are written like handlers of the part. -/
theorem Statement.core_dangling_handler (body : Statement) (parameter parameter' : Expression)
    (guard guard' : Option Expression) (first second : Statement) (depth : Nat) :
    (attempt (attempt body (.handler parameter guard first .done))
        (.handler parameter' guard' second .done)).core depth =
      (attempt (attempt body (.handler parameter guard first
        (.handler parameter' guard' second .done))) .done).core depth := by
  simp [core, Handlers.text]

/-! ## Printing -/

section

variable {f : Forest}

/-- What is printed for a phrase is what the grammar writes. -/
theorem Phrase.printed {texts : PrintJob → Except TreeError String}
    (htexts : (Printer.assembly f {}).Recursive texts) (hf : f.Linked) {p : Phrase} {x : Link}
    (h : p.In f x) : Printer.Prints texts x 0 p.text := by
  cases p with
  | expression e => exact e.prints htexts hf h 0
  | statement s => exact s.printed htexts hf h 0
  | clause parameter guard body =>
    obtain ⟨c, hc⟩ := h
    exact prints_clause htexts hf hc (body.printed htexts hf) 0

/-- Where nothing dangles, the phrase is clear. -/
theorem Phrase.clear_of_in (hf : f.Linked) {p : Phrase} {x : Link} (h : p.In f x)
    (clear : f.Clear x) : p.Clear := by
  cases p with
  | expression e => trivial
  | statement s => exact s.clear_of_in hf h clear
  | clause parameter guard body =>
    obtain ⟨c, hc, -, -, hbody⟩ := h
    exact body.clear_of_in hf hbody (clear.of_link hf hc (by simp [Contents.links]))

/-- Trees that spell one phrase are the same. -/
theorem Phrase.same_of_in {g : Forest} (hf : f.Intact) (hg : g.Intact) {p : Phrase} {x y : Link}
    (h : p.In f x) (h' : p.In g y) : f.Same g x y := by
  cases p with
  | expression e => exact e.same_of_in hf hg h h'
  | statement s => exact s.same_of_in hf hg h h'
  | clause parameter guard body =>
    obtain ⟨c, hc, hparameter, hguard, hbody⟩ := h
    obtain ⟨d, hd, hparameter', hguard', hbody'⟩ := h'
    exact .of_contents hc hd rfl rfl (.cons (parameter.same_of_in hf hg hparameter hparameter')
      (.cons (same_of_guardIn hf hg hguard hguard')
        (.cons (body.same_of_in hf hg hbody hbody') .nil)))

/-- A program spells a phrase. -/
theorem exists_phrase (hf : f.Linked) {x : NodeIndex} (h : f.Program x) :
    ∃ p : Phrase, p.In f (some x) := by
  obtain ⟨header, hheader⟩ := Forest.exists_header?_of_contains h.known
  have hk := Forest.kind?_of_header? hheader
  have statement (isStatement : header.kind.isStatement) : ∃ p : Phrase, p.In f (some x) := by
    obtain ⟨s, hs⟩ := (states hf (some x) h.proper).statement _ hk isStatement
    exact ⟨.statement s, hs⟩
  have expression (isExpression : header.kind.isExpression) : ∃ p : Phrase, p.In f (some x) := by
    obtain ⟨e, he⟩ := (expresses hf (some x) h.proper).expression _ hk isExpression
    exact ⟨.expression e, he⟩
  -- two kinds stand for nothing by themselves, and they are excluded
  cases hkind : header.kind with
  | emptyExpression => exact absurd (hk.trans (congrArg some hkind)) h.notElision
  | objectProperty => exact absurd (hk.trans (congrArg some hkind)) h.notProperty
  | catchClause =>
    obtain ⟨c, parameter, guard, body, clause⟩ :=
      (states hf (some x) h.proper).clause (hk.trans (congrArg some hkind))
    exact ⟨.clause parameter guard body, c, clause⟩
  | name | numberLiteral | stringLiteral | keywordLiteral | arrayLiteral | objectLiteral =>
    exact expression (by rw [hkind]; rfl)
  | block | expressionStatement | emptyStatement | ifStatement | tryStatement | forInLoop | doLoop
  | whileLoop => exact statement (by rw [hkind]; rfl)

end

end Grammar

open Grammar

variable {f g : Forest} {loose loose' : List NodeIndex} {x y : NodeIndex}

/-- What spells a phrase is printed as the phrase, if it is not too high. -/
theorem Reached.toSource_of_in (hf : Reached f loose) {p : Phrase} (h : p.In f (some x))
    (height : f.height (some x) ≤ Forest.maxHeight) :
    f.toSource (some x) = .ok (String.ofList p.text) := by
  have linked := hf.tended.linked
  have follows := Printer.follows f {}
  obtain ⟨texts, htexts, -⟩ := follows.existsUnique_recursive linked.acyclic
  have run : f.toSource (some x) = Assembly.resultFor texts (⟨·, 0⟩) (some x) := by
    rw [Forest.toSource, Forest.print_eq]
    exact follows.resultFor_eq (Printer.thorough f {}) linked htexts height
  exact run.trans (p.printed htexts linked h)

/-- **A program that is not too high is printed**, as a phrase that it spells. -/
theorem Reached.exists_phrase (hf : Reached f loose) (h : f.Program x)
    (height : f.height (some x) ≤ Forest.maxHeight) :
    ∃ p : Phrase, p.In f (some x) ∧ f.toSource (some x) = .ok (String.ofList p.text) := by
  obtain ⟨p, hp⟩ := Grammar.exists_phrase hf.tended.linked h
  exact ⟨p, hp, hf.toSource_of_in hp height⟩

/-- **Source text determines the tree.**  Two programs, in one forest or in two, that are printed
alike are the same tree, if nothing in them dangles. -/
theorem Reached.same_of_toSource_eq (hf : Reached f loose) (hg : Reached g loose')
    (hx : f.Program x) (hy : g.Program y) (height : f.height (some x) ≤ Forest.maxHeight)
    (height' : g.height (some y) ≤ Forest.maxHeight) (clear : f.Clear (some x))
    (clear' : g.Clear (some y)) (same : f.toSource (some x) = g.toSource (some y)) :
    f.Same g (some x) (some y) ∧ f.sameShape (some x) g (some y) = true := by
  have linked := hf.tended.linked
  have linked' := hg.tended.linked
  obtain ⟨p, hp, source⟩ := hf.exists_phrase hx height
  obtain ⟨q, hq, source'⟩ := hg.exists_phrase hy height'
  rw [source, source'] at same
  have texts : p.text = q.text := by
    have equal := congrArg String.toList (Except.ok.inj same)
    rwa [String.toList_ofList, String.toList_ofList] at equal
  obtain rfl : p = q :=
    Phrase.text_injective (p.clear_of_in linked hp clear) (q.clear_of_in linked' hq clear') texts
  have sames := p.same_of_in linked.intact linked'.intact hp hq
  exact ⟨sames, sames.sameShape_eq linked linked'⟩

/-- Two conditions, one inside the other, and one `else`, which is of the outer condition in the
first tree and of the inner one in the second.  The third tree is a clone of the second. -/
def Command.branches : List (Nat × Command) :=
  [(1, .construct (.node .ifStatement 0 0)), (2, .construct (.name 0 "a")),
    (3, .construct (.node .ifStatement 0 0)), (4, .construct (.name 0 "b")),
    (5, .construct (.node .emptyStatement 0 0)), (6, .construct (.node .emptyStatement 0 0)),
    (0, .edit (.setChild .condition (some 2) (some 3))),
    (0, .edit (.setChild .thenPart (some 2) (some 4))),
    (0, .edit (.setChild .condition (some 0) (some 1))),
    (0, .edit (.setChild .thenPart (some 0) (some 2))),
    (0, .edit (.setChild .elsePart (some 0) (some 5))),
    (7, .construct (.node .ifStatement 0 0)), (8, .construct (.name 0 "a")),
    (9, .construct (.node .ifStatement 0 0)), (10, .construct (.name 0 "b")),
    (11, .construct (.node .emptyStatement 0 0)), (12, .construct (.node .emptyStatement 0 0)),
    (0, .edit (.setChild .condition (some 8) (some 9))),
    (0, .edit (.setChild .thenPart (some 8) (some 10))),
    (0, .edit (.setChild .elsePart (some 8) (some 11))),
    (0, .edit (.setChild .condition (some 6) (some 7))),
    (0, .edit (.setChild .thenPart (some 6) (some 8))), (0, .clone (some 6) none)]

namespace Grammar

/-- A name of one letter. -/
def letter (c : Char) (valid : isIdentifier [c]) : Expression := .word (.identifier [c] valid)

/-- The first tree. -/
def outerElse : Statement :=
  .alternative (letter 'a' rfl) (.conditional (letter 'b' rfl) .empty) .empty

/-- The second tree and the third. -/
def innerElse : Statement :=
  .conditional (letter 'a' rfl) (.alternative (letter 'b' rfl) .empty .empty)

theorem outerElse_in : outerElse.In (Command.perform Command.branches).1 (some 0) := by
  have empty (x : NodeIndex) (hx : x = 4 ∨ x = 5) :
      Statement.empty.In (Command.perform Command.branches).1 (some x) := by
    show Forest.kind? _ _ = _
    rcases hx with rfl | rfl <;> decide +kernel
  exact ⟨{ condition := some 1, thenPart := some 2, elsePart := some 5 }, by decide +kernel,
    ⟨⟨"a"⟩, by decide +kernel, rfl⟩, ⟨{ condition := some 3, thenPart := some 4 },
      by decide +kernel, ⟨⟨"b"⟩, by decide +kernel, rfl⟩, empty 4 (.inl rfl), rfl⟩,
    empty 5 (.inr rfl)⟩

/-- A clone numbers its nodes as they were made here. -/
theorem innerElse_in {x : NodeIndex} (hx : x = 6 ∨ x = 12) :
    innerElse.In (Command.perform Command.branches).1 (some x) := by
  have empty (y : NodeIndex) (hy : y = x + 4 ∨ y = x + 5) :
      Statement.empty.In (Command.perform Command.branches).1 (some y) := by
    show Forest.kind? _ _ = _
    rcases hx with rfl | rfl <;> rcases hy with rfl | rfl <;> decide +kernel
  refine ⟨{ condition := some (x + 1), thenPart := some (x + 2) }, ?_, ⟨⟨"a"⟩, ?_, rfl⟩,
    ⟨{ condition := some (x + 3), thenPart := some (x + 4), elsePart := some (x + 5) }, ?_,
      ⟨⟨"b"⟩, ?_, rfl⟩, empty _ (.inl rfl), empty _ (.inr rfl)⟩, rfl⟩ <;>
    rcases hx with rfl | rfl <;> decide +kernel

/-- The three trees are programs, and none is too high. -/
theorem program_branches {x : NodeIndex} (hx : x = 0 ∨ x = 6 ∨ x = 12) :
    (Command.perform Command.branches).1.Program x ∧
      (Command.perform Command.branches).1.height (some x) ≤ Forest.maxHeight := by
  rcases hx with rfl | rfl | rfl <;>
    exact ⟨⟨by decide +kernel, by unfold Forest.Proper; decide +kernel, by decide +kernel,
      by decide +kernel⟩, by decide +kernel⟩

end Grammar

/-- In the second tree and its clone nothing dangles.  They are printed alike, and they are the
same. -/
theorem same_of_toSource_eq_branches :
    (Command.perform Command.branches).1.Same (Command.perform Command.branches).1
      (some 6) (some 12) := by
  have reached := reached_perform Command.branches
  obtain ⟨program, height⟩ := program_branches (x := 6) (.inr (.inl rfl))
  obtain ⟨program', height'⟩ := program_branches (x := 12) (.inr (.inr rfl))
  have clear := Forest.clear_of_isSettled (f := (Command.perform Command.branches).1)
    (x := some 6) (by decide +kernel)
  have clear' := Forest.clear_of_isSettled (f := (Command.perform Command.branches).1)
    (x := some 12) (by decide +kernel)
  have text := reached.toSource_of_in (p := .statement innerElse) (innerElse_in (.inl rfl)) height
  have text' :=
    reached.toSource_of_in (p := .statement innerElse) (innerElse_in (.inr rfl)) height'
  exact (Reached.same_of_toSource_eq reached reached program program' height height' clear clear'
    (text.trans text'.symm)).1

/-- **Where an `else` dangles, one text stands for two programs.** -/
theorem not_same_of_toSource_eq : ∃ f loose x y, Reached f loose ∧ f.Program x ∧ f.Program y ∧
    f.height (some x) ≤ Forest.maxHeight ∧ f.height (some y) ≤ Forest.maxHeight ∧
      f.toSource (some x) = .ok "if (a) \n    if (b) \n    ;\nelse \n    ;\n" ∧
      f.toSource (some y) = f.toSource (some x) ∧
      f.sameShape (some x) f (some y) = false := by
  have reached := reached_perform Command.branches
  obtain ⟨program, height⟩ := program_branches (x := 0) (.inl rfl)
  obtain ⟨program', height'⟩ := program_branches (x := 6) (.inr (.inl rfl))
  have text := reached.toSource_of_in (p := .statement outerElse) outerElse_in height
  have text' := reached.toSource_of_in (p := .statement innerElse) (innerElse_in (.inl rfl)) height'
  have open_ : Statement.empty.kind ≠ .block := nofun
  have dangling : outerElse.core 0 = innerElse.core 0 :=
    Statement.core_dangling_else _ _ _ open_ 0
  refine ⟨_, _, 0, 6, reached, program, program', height, height', ?_, ?_, by decide +kernel⟩
  · rw [text]
    decide +kernel
  · rw [text, text', Phrase.text, Phrase.text, dangling]

/-- One `try` as the block of another, and two handlers.  In the first tree each of them has one,
and in the second, which was made as a clone of the first, both are of the inner one. -/
def Command.catches : List (Nat × Command) :=
  [(1, .construct (.node .tryStatement 0 0)), (2, .construct (.node .tryStatement 0 0)),
    (3, .construct (.node .emptyStatement 0 0)), (4, .construct (.node .catchClause 0 0)),
    (5, .construct (.name 0 "e")), (6, .construct (.node .emptyStatement 0 0)),
    (7, .construct (.node .catchClause 0 0)), (8, .construct (.name 0 "f")),
    (9, .construct (.node .emptyStatement 0 0)),
    (0, .edit (.setChild .varName (some 3) (some 4))),
    (0, .edit (.setChild .handlerBody (some 3) (some 5))),
    (0, .edit (.setChild .varName (some 6) (some 7))),
    (0, .edit (.setChild .handlerBody (some 6) (some 8))),
    (0, .edit (.setChild .tryBlock (some 1) (some 2))),
    (0, .edit (.append .catchClauses (some 1) (some 3))),
    (0, .edit (.setChild .tryBlock (some 0) (some 1))),
    (0, .edit (.append .catchClauses (some 0) (some 6))), (0, .clone (some 0) none),
    (0, .edit (.append .catchClauses (some 10) (some 15)))]

namespace Grammar

/-- The first tree. -/
def outerCatch : Statement :=
  .attempt (.attempt .empty (.handler (letter 'e' rfl) none .empty .done))
    (.handler (letter 'f' rfl) none .empty .done)

/-- The second tree. -/
def innerCatch : Statement :=
  .attempt (.attempt .empty (.handler (letter 'e' rfl) none .empty
    (.handler (letter 'f' rfl) none .empty .done))) .done

/-- The handlers stand in both trees with their names and bodies behind them. -/
theorem isClause_catches (x : NodeIndex) (name : Char) (valid : isIdentifier [name])
    (hx : name = 'e' ∧ (x = 3 ∨ x = 12) ∨ name = 'f' ∧ (x = 6 ∨ x = 15)) :
    IsClause (Command.perform Command.catches).1 (some x)
      { varName := some (x + 1), body := some (x + 2) } (letter name valid) none .empty where
  contents := by rcases hx with ⟨rfl, rfl | rfl⟩ | ⟨rfl, rfl | rfl⟩ <;> decide +kernel
  parameter := by
    refine ⟨⟨String.ofList [name]⟩, ?_, String.toList_ofList⟩
    rcases hx with ⟨rfl, rfl | rfl⟩ | ⟨rfl, rfl | rfl⟩ <;> decide +kernel
  guard := rfl
  body := by
    show Forest.kind? _ _ = _
    rcases hx with ⟨rfl, rfl | rfl⟩ | ⟨rfl, rfl | rfl⟩ <;> decide +kernel

theorem outerCatch_in : outerCatch.In (Command.perform Command.catches).1 (some 0) := by
  have block : Statement.empty.In (Command.perform Command.catches).1 (some 2) := by
    show Forest.kind? _ _ = _
    decide +kernel
  have inner := isClause_catches 3 'e' rfl (.inl ⟨rfl, .inl rfl⟩)
  have outer := isClause_catches 6 'f' rfl (.inr ⟨rfl, .inl rfl⟩)
  refine ⟨{ tryBlock := some 1, catchClauses := [some 6] }, by decide +kernel,
    ⟨{ tryBlock := some 2, catchClauses := [some 3] }, by decide +kernel, block, ?_⟩, ?_⟩
  · exact ⟨_, [], _, rfl, inner.contents, inner.parameter, inner.guard, inner.body, rfl, rfl⟩
  · exact ⟨_, [], _, rfl, outer.contents, outer.parameter, outer.guard, outer.body, rfl, rfl⟩

theorem innerCatch_in : innerCatch.In (Command.perform Command.catches).1 (some 9) := by
  have block : Statement.empty.In (Command.perform Command.catches).1 (some 11) := by
    show Forest.kind? _ _ = _
    decide +kernel
  have first := isClause_catches 12 'e' rfl (.inl ⟨rfl, .inr rfl⟩)
  have second := isClause_catches 15 'f' rfl (.inr ⟨rfl, .inr rfl⟩)
  refine ⟨{ tryBlock := some 10 }, by decide +kernel,
    ⟨{ tryBlock := some 11, catchClauses := [some 12, some 15] }, by decide +kernel, block, ?_⟩,
    rfl, rfl⟩
  refine ⟨_, _, _, rfl, first.contents, first.parameter, first.guard, first.body, ?_⟩
  exact ⟨_, [], _, rfl, second.contents, second.parameter, second.guard, second.body, rfl, rfl⟩

end Grammar

/-- **Where a handler dangles, one text stands for two programs.** -/
theorem not_same_of_toSource_eq_handlers : ∃ f loose x y, Reached f loose ∧
    f.Program x ∧ f.Program y ∧
    f.toSource (some x) = .ok "try try ; catch (e) ; catch (f) ;\n" ∧
    f.toSource (some y) = f.toSource (some x) ∧ f.sameShape (some x) f (some y) = false := by
  have reached := reached_perform Command.catches
  have program {x : NodeIndex} (hx : x = 0 ∨ x = 9) :
      (Command.perform Command.catches).1.Program x ∧
        (Command.perform Command.catches).1.height (some x) ≤ Forest.maxHeight := by
    rcases hx with rfl | rfl <;>
      exact ⟨⟨by decide +kernel, by unfold Forest.Proper; decide +kernel, by decide +kernel,
        by decide +kernel⟩, by decide +kernel⟩
  obtain ⟨outer, height⟩ := program (.inl rfl)
  obtain ⟨inner, height'⟩ := program (.inr rfl)
  have text := reached.toSource_of_in (p := .statement outerCatch) outerCatch_in height
  have text' := reached.toSource_of_in (p := .statement innerCatch) innerCatch_in height'
  have dangling : outerCatch.core 0 = innerCatch.core 0 :=
    Statement.core_dangling_handler _ _ _ _ _ _ _ 0
  refine ⟨_, _, 0, 9, reached, outer, inner, ?_, ?_, by decide +kernel⟩
  · rw [text]
    decide +kernel
  · rw [text, text', Phrase.text, Phrase.text, dangling]

end SyntaxForest
