import SyntaxForest.Proofs.SpelledExpressions

/-!
# Printing spells out statements

What is printed for a statement is what the grammar writes for it (`Statement.printed`), so that
what is known about written phrases is known about printed source.

A part that stands behind a word in the same line is trimmed.  A statement starts and ends with
characters that show, so trimming takes the indentation and the line break, and nothing else
(`Statement.toList_trim`).
-/

namespace SyntaxForest

namespace Grammar

open Printer

mutual

/-- A statement ends with a brace or a semicolon: its own one, or that of its last part. -/
theorem Statement.endsVisibly : ∀ (s : Statement) (depth : Nat), EndsVisibly (s.core depth)
  | .block body, depth => by
    simp only [Statement.core]
    exact .append (.append (.append ⟨[], '\x7d', rfl, rfl⟩ _) _) _
  | .expression e, depth => ⟨e.text, ';', by rw [Statement.core], rfl⟩
  | .empty, depth => ⟨[], ';', rfl, rfl⟩
  | .conditional test t, depth => by
    simp only [Statement.core]
    exact .append (.append (.append (.append (t.endsVisibly depth) _) _) _) _
  | .alternative test t e, depth => by
    simp only [Statement.core]
    exact .append (.append (.append (.append (.append (.append
      (.append (e.endsVisibly depth) _) _) _) _) _) _) _
  | .attempt body hs, depth => by
    simp only [Statement.core]
    exact .append (hs.endsVisibly depth (body.endsVisibly depth)) _
  | .forIn isForEach iterator object body, depth => by
    simp only [Statement.core]
    refine .append (.append (.append (.append (.append (.append (.append ?_ _) _) _) _) _) _) _
    split
    · exact body.endsVisibly depth
    · exact .append (body.endsVisibly (depth + 1)) _
  | .doWhile body test, depth => by
    simp only [Statement.core]
    exact .append (.append (.append (.append ⟨[')'], ';', rfl, rfl⟩ _) _) _) _
  | .whileDo test body, depth => by
    simp only [Statement.core]
    refine .append (.append (.append ?_ _) _) _
    split
    · exact body.endsVisibly depth
    · exact .append (body.endsVisibly (depth + 1)) _

/-- Behind a part that ends so, handlers leave a text that ends so, even if there are none. -/
theorem Handlers.endsVisibly : ∀ (hs : Handlers) (depth : Nat) {front : List Char},
    EndsVisibly front → EndsVisibly (front ++ hs.text depth)
  | .done, depth, front, h => by
    rw [Handlers.text, List.append_nil]
    exact h
  | .final body, depth, front, h => by
    rw [Handlers.text]
    exact .append (.append (body.endsVisibly depth) _) _
  | .handler parameter guard body hs, depth, front, h => by
    rw [Handlers.text]
    exact .append (.append (.append (hs.endsVisibly depth (body.endsVisibly depth)) _) _) _

end

/-- Indentation is nothing but blanks. -/
theorem isBlank_pad (depth : Nat) : (pad depth).all isBlank := by
  simp [pad, isBlank]

/-- Trimming a printed statement leaves the statement. -/
theorem Statement.toList_trim (s : Statement) (depth : Nat) :
    (trim (String.ofList (pad depth ++ (s.core depth ++ ['\n'])))).toList = s.core depth := by
  rw [SyntaxForest.toList_trim, String.toList_ofList]
  exact trimmed_of_visible (isBlank_pad depth) rfl (s.exists_first depth) (s.endsVisibly depth)

/-! ## Statements -/

/-- A handler by itself. -/
def clause (parameter : Expression) (guard : Option Expression) (body : Statement) (depth : Nat) :
    List Char :=
  ['c', 'a', 't', 'c', 'h', ' ', '('] ++ (clauseHead parameter guard ++ body.core depth)

/-- Trimming a printed handler leaves the handler. -/
theorem toList_trim_clause (parameter : Expression) (guard : Option Expression) (body : Statement)
    (depth : Nat) :
    (trim (String.ofList (pad depth ++ (clause parameter guard body depth ++ ['\n'])))).toList =
      clause parameter guard body depth := by
  rw [SyntaxForest.toList_trim, String.toList_ofList]
  refine trimmed_of_visible (isBlank_pad depth) rfl ⟨'c', _, rfl, rfl⟩ ?_
  exact .append (.append (body.endsVisibly depth) _) _

variable {f : Forest} {texts : PrintJob → Except TreeError String}

/-- Whether a branch is a block is known from its phrase. -/
theorem Statement.isBlock_of_in {s : Statement} {x : Link} (h : s.In f x) :
    isBlock f x = decide (s.kind = .block) := by
  rw [isBlock, kind?_of_in h]
  rfl

/-- What is printed for the statement, wherever it stands, is what the grammar writes. -/
def Statement.Printed (f : Forest) (texts : PrintJob → Except TreeError String)
    (s : Statement) : Prop :=
  ∀ ⦃x : Link⦄, s.In f x → ∀ depth, Prints texts x depth (pad depth ++ (s.core depth ++ ['\n']))

/-- The texts for the statements of a block are the lines that the grammar writes. -/
def Statements.Printed (f : Forest) (texts : PrintJob → Except TreeError String)
    (ss : Statements) : Prop :=
  ∀ ⦃xs : List Link⦄, ss.In f xs → ∀ depth,
    ∃ parts, PrintsAll texts depth xs parts ∧ parts.flatMap String.toList = ss.lines depth

/-- The texts for the handlers, trimmed, and what is behind them are what the grammar writes. -/
def Handlers.Printed (f : Forest) (texts : PrintJob → Except TreeError String)
    (hs : Handlers) : Prop :=
  ∀ ⦃xs : List Link⦄ ⦃last : Link⦄, hs.In f xs last → ∀ depth,
    ∃ parts tail, PrintsAll texts depth xs parts ∧
      PrintsOptional texts last depth (" finally " ++ trim ·) tail ∧
      (parts.flatMap fun part => ' ' :: (trim part).toList) ++ tail.toList = hs.text depth

theorem Statements.printed_nil : Statements.nil.Printed f texts := by
  intro xs h depth
  obtain rfl : xs = [] := h
  exact ⟨[], .nil, rfl⟩

/-- The lines of a block are those of its first statement and those of the others. -/
theorem Statements.printed_cons {first : Statement} {ss : Statements}
    (hfirst : first.Printed f texts) (hrest : ss.Printed f texts) :
    (Statements.cons first ss).Printed f texts := by
  intro xs h depth
  obtain ⟨x, more, rfl, hx, hmore⟩ := h
  obtain ⟨parts, printed, written⟩ := hrest hmore depth
  refine ⟨_ :: parts, .cons (hfirst hx depth) printed, ?_⟩
  rw [List.flatMap_cons, String.toList_ofList, written]
  simp [lines]

theorem Handlers.printed_done : Handlers.done.Printed f texts := by
  rintro xs last ⟨rfl, hlast⟩ depth
  exact ⟨[], _, .nil, .absent hlast, rfl⟩

/-- What is done in every case stands behind its word without its own indentation. -/
theorem Handlers.printed_final {body : Statement} (h : body.Printed f texts) :
    (Handlers.final body).Printed f texts := by
  rintro xs last ⟨rfl, hlast⟩ depth
  refine ⟨[], _, .nil, .present (h hlast depth), ?_⟩
  simp [-String.ofList_append, body.toList_trim, text, finallyWord]

section

variable (htexts : (assembly f {}).Recursive texts) (hf : f.Linked)
include htexts hf

omit hf in
/-- A block is written as its lines, one deeper, between its braces. -/
theorem Statement.printed_block {body : Statements} (h : body.Printed f texts) :
    (Statement.block body).Printed f texts := by
  rintro x ⟨c, hc, hbody⟩ depth
  obtain ⟨parts, printed, written⟩ := h hbody (depth + 1)
  refine prints_block htexts hc printed ?_
  simp [toList_concat, written, toList_pad, toList_newlineText, core]

/-- The expression writes the indentation of the statement. -/
theorem Statement.printed_expression (e : Expression) :
    (Statement.expression e).Printed f texts := by
  rintro x ⟨c, hc, he⟩ depth
  refine prints_expressionStatement htexts hc (e.prints htexts hf he depth) ?_
  simp [toList_newlineText, core]

theorem Statement.printed_empty : Statement.empty.Printed f texts := by
  intro x hx depth
  refine prints_of_bare htexts hf hx rfl rfl ?_
  simp [toList_pad, toList_newlineText, core]

/-- The branch follows in the line of the condition or in a line of its own, as the grammar has
it. -/
theorem Statement.printed_conditional (test : Expression) {t : Statement}
    (ht : t.Printed f texts) : (Statement.conditional test t).Printed f texts := by
  rintro x ⟨c, hc, htest, hthen, helse⟩ depth
  refine prints_conditional htexts hf hc (test.prints htexts hf htest 0) (ht hthen depth) helse ?_
  by_cases block : t.kind = .block <;>
    simp [-String.ofList_append, isBlock_of_in hthen, block, toList_pad, toList_newlineText,
      t.toList_trim, core, ownLine, pad_zero]

/-- Where the word `else` stands depends on the first branch, and where the second branch stands
depends on the second. -/
theorem Statement.printed_alternative (test : Expression) {t e : Statement}
    (ht : t.Printed f texts) (he : e.Printed f texts) :
    (Statement.alternative test t e).Printed f texts := by
  rintro x ⟨c, hc, htest, hthen, helse⟩ depth
  refine prints_alternative htexts hf hc (test.prints htexts hf htest 0) (ht hthen depth)
    (he helse depth) ?_
  have elseKind := kind?_of_in helse
  by_cases block : t.kind = .block <;> by_cases inline : e.kind = .block ∨ e.kind = .ifStatement <;>
    simp [-String.ofList_append, isBlock_of_in hthen, isBlock_of_in helse, elseKind, block, inline,
      toList_pad, toList_newlineText, t.toList_trim, e.toList_trim, core, ownLine, elseLine,
      elseWord, pad_zero]

omit hf in
/-- The parts of a `try` are put together in one line, each without its indentation. -/
theorem Statement.printed_attempt {body : Statement} {hs : Handlers} (hbody : body.Printed f texts)
    (hhs : hs.Printed f texts) : (Statement.attempt body hs).Printed f texts := by
  rintro x ⟨c, hc, hx, hhandlers⟩ depth
  obtain ⟨parts, tail, printed, last, written⟩ := hhs hhandlers depth
  refine prints_attempt htexts hc (hbody hx depth) printed last ?_
  simp [-String.ofList_append, toList_concat, List.flatMap_map, ← written, toList_pad,
    toList_newlineText, body.toList_trim, core]

/-- A body that is no block is printed one deeper, and the grammar writes it there. -/
theorem Statement.printed_forIn (isForEach : Bool) (iterator object : Expression)
    {body : Statement} (h : body.Printed f texts) :
    (Statement.forIn isForEach iterator object body).Printed f texts := by
  rintro x ⟨c, hc, rfl, hiterator, hobject, hbody⟩ depth
  refine prints_forIn htexts hf hc (iterator.prints htexts hf hiterator 0)
    (object.prints htexts hf hobject 0) (h hbody _) ?_
  cases c.isForEach <;> by_cases block : body.kind = .block <;>
    simp [-String.ofList_append, isBlock_of_in hbody, block, toList_pad, toList_newlineText,
      body.toList_trim, core, ownLine, pad_zero]

/-- The body of a `do` loop stands in the line of the word, be it a block or not. -/
theorem Statement.printed_doWhile {body : Statement} (h : body.Printed f texts)
    (test : Expression) : (Statement.doWhile body test).Printed f texts := by
  rintro x ⟨c, hc, hbody, htest⟩ depth
  refine prints_doWhile htexts hf hc (h hbody depth) (test.prints htexts hf htest 0) ?_
  simp [-String.ofList_append, toList_pad, toList_newlineText, body.toList_trim, core, pad_zero]

/-- As for the other loop with its test in front. -/
theorem Statement.printed_whileDo (test : Expression) {body : Statement}
    (h : body.Printed f texts) : (Statement.whileDo test body).Printed f texts := by
  rintro x ⟨c, hc, htest, hbody⟩ depth
  refine prints_whileDo htexts hf hc (test.prints htexts hf htest 0) (h hbody _) ?_
  by_cases block : body.kind = .block <;>
    simp [-String.ofList_append, isBlock_of_in hbody, block, toList_pad, toList_newlineText,
      body.toList_trim, core, ownLine, pad_zero]

/-- A handler by itself is printed as the grammar writes it. -/
theorem prints_clause {x : Link} {c : Contents.CatchClause} {parameter : Expression}
    {guard : Option Expression} {body : Statement} (h : IsClause f x c parameter guard body)
    (hbody : body.Printed f texts) (depth : Nat) :
    Prints texts x depth (pad depth ++ (clause parameter guard body depth ++ ['\n'])) := by
  have parameterText := parameter.prints htexts hf h.parameter 0
  cases guard with
  | none =>
    refine prints_catchClause htexts hf h.contents parameterText (.absent h.guard)
      (hbody h.body depth) ?_
    simp [-String.ofList_append, toList_pad, toList_newlineText, body.toList_trim, clause,
      clauseHead, pad_zero]
  | some g =>
    refine prints_catchClause htexts hf h.contents parameterText
      (.present (g.prints htexts hf h.guard 0)) (hbody h.body depth) ?_
    simp [-String.ofList_append, toList_pad, toList_newlineText, body.toList_trim, clause,
      clauseHead, pad_zero]

/-- A handler in front of others is trimmed like them. -/
theorem Handlers.printed_handler (parameter : Expression) (guard : Option Expression)
    {body : Statement} {hs : Handlers} (hbody : body.Printed f texts) (hrest : hs.Printed f texts) :
    (Handlers.handler parameter guard body hs).Printed f texts := by
  rintro xs last ⟨x, more, c, rfl, hc, hparameter, hguard, hx, hmore⟩ depth
  obtain ⟨parts, tail, printed, hlast, written⟩ := hrest hmore depth
  have own := prints_clause htexts hf ⟨hc, hparameter, hguard, hx⟩ hbody depth
  refine ⟨_ :: parts, tail, .cons own printed, hlast, ?_⟩
  rw [List.flatMap_cons, toList_trim_clause, List.append_assoc, written]
  simp [text, clause, catchWord]

end

mutual

/-- **What is printed for a statement is what the grammar writes.** -/
theorem Statement.printed (htexts : (assembly f {}).Recursive texts) (hf : f.Linked) :
    ∀ s : Statement, s.Printed f texts
  | .block body => Statement.printed_block htexts (body.printed htexts hf)
  | .expression e => Statement.printed_expression htexts hf e
  | .empty => Statement.printed_empty htexts hf
  | .conditional test t => Statement.printed_conditional htexts hf test (t.printed htexts hf)
  | .alternative test t e =>
    Statement.printed_alternative htexts hf test (t.printed htexts hf) (e.printed htexts hf)
  | .attempt body hs =>
    Statement.printed_attempt htexts (body.printed htexts hf) (hs.printed htexts hf)
  | .forIn isForEach iterator object body =>
    Statement.printed_forIn htexts hf isForEach iterator object (body.printed htexts hf)
  | .doWhile body test => Statement.printed_doWhile htexts hf (body.printed htexts hf) test
  | .whileDo test body => Statement.printed_whileDo htexts hf test (body.printed htexts hf)

/-- The lines of a block are what the grammar writes. -/
theorem Statements.printed (htexts : (assembly f {}).Recursive texts) (hf : f.Linked) :
    ∀ ss : Statements, ss.Printed f texts
  | .nil => Statements.printed_nil
  | .cons first rest =>
    Statements.printed_cons (first.printed htexts hf) (rest.printed htexts hf)

/-- What follows the block of a `try` is what the grammar writes. -/
theorem Handlers.printed (htexts : (assembly f {}).Recursive texts) (hf : f.Linked) :
    ∀ hs : Handlers, hs.Printed f texts
  | .done => Handlers.printed_done
  | .final body => Handlers.printed_final (body.printed htexts hf)
  | .handler parameter guard body hs =>
    Handlers.printed_handler htexts hf parameter guard (body.printed htexts hf)
      (hs.printed htexts hf)

end

end Grammar

end SyntaxForest
