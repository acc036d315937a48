import SyntaxForest.Proofs.ReadableExpressions

/-!
# Reading statements

Two clear statements that are written alike are one statement (`Statement.readable`).  The proof
goes down both at once.  That they are of one kind shows at their first characters
(`Statement.recognize_core`), and the rest is cut into parts from left to right.

Where a part ends is the question.  A statement and what stands behind it are read in one way if
nothing behind it would be taken for a part of it (`Ends`): no `else` in a new line, no `else` or
handler in the same line, and no `else` in a line that is indented more deeply, for that one belongs
to something inside.  What stands behind a part is known from the statement that the part is in, and
that is how the condition is handed down: a branch in front of an `else` takes none
(`Statement.stops_else`), a part in front of a handler takes none (`Statement.stops_handlers`), and
behind a statement in a block there is a line that does not start with `else` (`NoElse`).
-/

namespace SyntaxForest

namespace Grammar

/-! ## The first characters -/

/-- The words that open a statement or a handler, if a blank follows. -/
def openers : List (List Char × Kind) :=
  [(['i', 'f'], .ifStatement), (['t', 'r', 'y'], .tryStatement),
    (['c', 'a', 't', 'c', 'h'], .catchClause), (['f', 'o', 'r'], .forInLoop),
    (['d', 'o'], .doLoop), (['w', 'h', 'i', 'l', 'e'], .whileLoop)]

/-- The kind of a statement by its first characters. -/
def recognize (text : List Char) : Option Kind :=
  match text.takeWhile isNumberCharacter, text.dropWhile isNumberCharacter with
  | word, ' ' :: _ => openers.lookup word
  | [], '\x7b' :: '\n' :: _ => some .block
  | [], ';' :: _ => some .emptyStatement
  | _, _ => some .expressionStatement

/-- Blanks start no expression. -/
theorem isBlank_of_sortOf {c : Char} {k : Kind} (h : sortOf c = some k) : isBlank c = false := by
  unfold sortOf at h
  split at h
  · next inWord => exact isBlank_of_isWordCharacter inWord
  split at h
  · next quote => rcases quote with rfl | rfl <;> rfl
  split at h
  · next bracket => subst bracket; rfl
  split at h
  · next brace => subst brace; rfl
  · cases h

/-- An object is not a block: what follows its brace stands in the same line. -/
theorem Elements.exists_first (es : Elements) :
    ∃ first more, es.text '\x7d' = first :: more ∧ first ≠ '\n' := by
  have other (e : Expression) (behind : List Char) :
      ∃ first more, e.text ++ behind = first :: more ∧ first ≠ '\n' := by
    obtain ⟨first, more, written, known⟩ := e.exists_first
    refine ⟨first, more ++ behind, by rw [written, List.cons_append], ?_⟩
    rintro rfl
    cases known
  cases es with
  | nil => exact ⟨'\x7d', _, rfl, by decide⟩
  | elision es => exact ⟨',', _, rfl, by decide⟩
  | element e es => exact other e _
  | property key value es => exact other key _

theorem Expression.recognize_append (e : Expression) {rest : List Char} (h : Broken rest)
    (h' : rest.head? ≠ some ' ') : recognize (e.text ++ rest) = some .expressionStatement := by
  cases e with
  | word w =>
    rw [recognize, text, w.takeWhile_append h, w.dropWhile_append h]
    have := w.chars_ne_nil
    split <;> simp_all
  | string quote value => cases quote <;> rfl
  | array es => rfl
  | object es =>
    -- a block starts with the same brace
    obtain ⟨first, more, written, other⟩ := es.exists_first
    rw [text, written]
    simp [recognize, isNumberCharacter, isWordCharacter, other]

/-- **The first characters of a statement tell its kind.** -/
theorem Statement.recognize_core (s : Statement) (depth : Nat) (rest : List Char) :
    recognize (s.core depth ++ rest) = some s.kind := by
  cases s with
  | expression e =>
    rw [core, List.append_assoc]
    exact e.recognize_append (broken_cons rfl _) (by simp)
  | block | empty | conditional | alternative | attempt | forIn | doWhile | whileDo =>
    simp only [core, List.append_assoc]
    rfl

/-- Statements that are written alike are of one kind. -/
theorem Statement.kind_eq {s s' : Statement} {depth : Nat} {rest rest' : List Char}
    (same : s.core depth ++ rest = s'.core depth ++ rest') : s.kind = s'.kind := by
  have recognized := s.recognize_core depth rest
  rw [same, recognize_core] at recognized
  exact (Option.some.inj recognized).symm

/-- A statement does not start with a blank. -/
theorem Statement.exists_first (s : Statement) (depth : Nat) :
    ∃ first more, s.core depth = first :: more ∧ isBlank first = false := by
  cases s with
  | expression e =>
    obtain ⟨first, more, written, known⟩ := e.exists_first
    exact ⟨first, more ++ [';'], by rw [core, written]; rfl, isBlank_of_sortOf known⟩
  | block | empty | conditional | alternative | attempt | forIn | doWhile | whileDo =>
    simp only [core]
    exact ⟨_, _, rfl, rfl⟩

/-- A statement does not start with an `else`. -/
theorem Statement.not_else_prefix (s : Statement) (depth : Nat) (rest : List Char) :
    ¬ ['e', 'l', 's', 'e', ' '] <+: s.core depth ++ rest := by
  rintro ⟨more, same⟩
  have recognized := s.recognize_core depth rest
  rw [← same] at recognized
  cases recognized

/-! ## Lines -/

/-- Where two lines start alike, they are indented alike. -/
theorem eq_of_pad_append {k j : Nat} {c c' : Char} {more more' : List Char} (hc : c ≠ ' ')
    (hc' : c' ≠ ' ') (same : pad k ++ c :: more = pad j ++ c' :: more') :
    k = j ∧ c :: more = c' :: more' := by
  have blanks (n : Nat) : (pad n).all (· == ' ') := by simp [pad]
  -- without the blanks in front both sides are the same, so there are as many blanks
  have rests := congrArg (List.dropWhile (· == ' ')) same
  rw [dropWhile_append_of_all (blanks k) (by simpa using hc),
    dropWhile_append_of_all (blanks j) (by simpa using hc')] at rests
  refine ⟨?_, rests⟩
  rw [rests, List.append_cancel_right_eq] at same
  have lengths := congrArg List.length same
  simp only [pad, List.length_replicate] at lengths
  omega

/-- A text is a line that does not start with `else`, at whatever depth. -/
def NoElse (text : List Char) : Prop := ∀ k, ¬ pad k ++ ['e', 'l', 's', 'e', ' '] <+: text

theorem noElse_nil : NoElse [] := by
  intro k prefixed
  have := List.eq_nil_of_append_eq_nil (List.prefix_nil.mp prefixed)
  exact absurd this.2 (by decide)

/-- A line is known by what stands behind its blanks. -/
theorem noElse_pad {c : Char} {more : List Char} (hc : c ≠ ' ')
    (h : ¬ ['e', 'l', 's', 'e', ' '] <+: c :: more) (depth : Nat) :
    NoElse (pad depth ++ c :: more) := by
  rintro k ⟨tail, same⟩
  rw [List.append_assoc] at same
  obtain ⟨-, rests⟩ := eq_of_pad_append (by decide) hc same
  exact h ⟨tail, rests⟩

theorem noElse_brace (depth : Nat) (rest : List Char) : NoElse (pad depth ++ '\x7d' :: rest) :=
  noElse_pad (by decide) (by simp) depth

theorem Statement.noElse_core (s : Statement) (depth depth' : Nat) (rest : List Char) :
    NoElse (pad depth ++ (s.core depth' ++ rest)) := by
  obtain ⟨first, more, written, visible⟩ := s.exists_first depth'
  have other := s.not_else_prefix depth' rest
  rw [written, List.cons_append] at other ⊢
  refine noElse_pad ?_ other depth
  rintro rfl
  cases visible

/-! ## What stands behind a statement -/

/-- Nothing of what stands behind a statement at a depth would be taken for a part of it.  Whether
the statement takes an `else` in a new line, a handler, or an `else` in its own line are the first
three arguments.  A line that is indented more deeply is in no way behind the statement. -/
structure Ends (takesElse takesHandler goesOn : Prop) (depth : Nat) (rest : List Char) : Prop where
  newLine : takesElse → ¬ elseLine depth <+: rest
  deeper : ∀ k, depth < k → ¬ elseLine k <+: rest
  handler : takesHandler → ¬ catchWord <+: rest ∧ ¬ finallyWord <+: rest
  sameLine : goesOn → ¬ elseWord <+: rest

/-- Nothing behind the statement would be taken for a part of it.  A block takes nothing. -/
abbrev Statement.Stops (s : Statement) (depth : Nat) (rest : List Char) : Prop :=
  Ends s.TakesElse s.TakesHandler (s.kind ≠ .block) depth rest

namespace Ends

variable {takesElse takesHandler goesOn : Prop} {depth : Nat} {rest : List Char}

/-- What takes less has less to fear. -/
theorem mono {takesElse' takesHandler' goesOn' : Prop}
    (h : Ends takesElse takesHandler goesOn depth rest) (hElse : takesElse' → takesElse)
    (hHandler : takesHandler' → takesHandler) (hGoesOn : goesOn' → goesOn) :
    Ends takesElse' takesHandler' goesOn' depth rest where
  newLine taken := h.newLine (hElse taken)
  deeper := h.deeper
  handler taken := h.handler (hHandler taken)
  sameLine taken := h.sameLine (hGoesOn taken)

/-- Behind a line break there is only a new line to fear. -/
theorem of_newline {next : List Char} (h : NoElse next) :
    Ends takesElse takesHandler goesOn depth ('\n' :: next) where
  newLine _ prefixed := h depth (List.cons_prefix_cons.mp prefixed).2
  deeper k _ prefixed := h k (List.cons_prefix_cons.mp prefixed).2
  handler _ := ⟨by simp [catchWord], by simp [finallyWord]⟩
  sameLine _ := by simp [elseWord]

/-- Behind a blank there is no new line. -/
theorem of_blank {next : List Char}
    (hHandler : takesHandler → ¬ catchWord <+: ' ' :: next ∧ ¬ finallyWord <+: ' ' :: next)
    (hSameLine : goesOn → ¬ elseWord <+: ' ' :: next) :
    Ends takesElse takesHandler goesOn depth (' ' :: next) where
  newLine _ := by simp [elseLine]
  deeper k _ := by simp [elseLine]
  handler := hHandler
  sameLine := hSameLine

end Ends

/-- A block takes nothing. -/
theorem Statement.not_takes_of_block {s : Statement} (h : s.kind = .block) :
    ¬ s.TakesElse ∧ ¬ s.TakesHandler := by
  cases s with
  | block body => exact ⟨id, id⟩
  | expression | empty | conditional | alternative | attempt | forIn | doWhile | whileDo => cases h

/-- Behind a block, only what is indented more deeply is in no way there. -/
theorem Statement.stops_of_block {s : Statement} (h : s.kind = .block) {depth : Nat}
    {rest : List Char} (deeper : ∀ k, depth < k → ¬ elseLine k <+: rest) : s.Stops depth rest where
  newLine taken := absurd taken (s.not_takes_of_block h).1
  deeper := deeper
  handler taken := absurd taken (s.not_takes_of_block h).2
  sameLine other := absurd h other

/-- What stands behind a statement with an `else` of its own. -/
theorem Statement.stops_else {s : Statement} (h : ¬ s.TakesElse) (depth : Nat)
    (rest : List Char) :
    s.Stops depth ((if s.kind = .block then elseWord else elseLine depth) ++ rest) := by
  split
  · next block => exact stops_of_block block fun k _ => by simp [elseLine, elseWord]
  · exact {
      newLine taken := absurd taken h
      deeper := by
        rintro k deeper ⟨tail, same⟩
        simp only [elseLine, List.cons_append, List.append_assoc, List.cons.injEq, true_and] at same
        have := (eq_of_pad_append (by decide) (by decide) same).1
        omega
      handler _ := ⟨by simp [catchWord, elseLine], by simp [finallyWord, elseLine]⟩
      sameLine _ := by simp [elseWord, elseLine] }

/-! ## Reading statements -/

/-- What is written as this statement is this statement, if nothing behind is taken for a part of
it. -/
def Statement.Readable (s : Statement) : Prop :=
  ∀ ⦃s' : Statement⦄ ⦃depth : Nat⦄ ⦃rest rest' : List Char⦄,
    s.core depth ++ rest = s'.core depth ++ rest' → s.Clear → s'.Clear →
      s.Stops depth rest → s'.Stops depth rest' → s = s' ∧ rest = rest'

/-- What is written as these statements, up to the brace that closes them, are these statements. -/
def Statements.Readable (ss : Statements) : Prop :=
  ∀ ⦃ss' : Statements⦄ ⦃depth : Nat⦄ ⦃rest rest' : List Char⦄,
    ss.lines (depth + 1) ++ (pad depth ++ '\x7d' :: rest) =
      ss'.lines (depth + 1) ++ (pad depth ++ '\x7d' :: rest') →
    ss.Clear → ss'.Clear → ss = ss' ∧ rest = rest'

/-- What is written as these handlers are these handlers, if nothing behind is taken for one
more. -/
def Handlers.Readable (hs : Handlers) : Prop :=
  ∀ ⦃hs' : Handlers⦄ ⦃before before' taken taken' : Prop⦄ ⦃depth : Nat⦄
    ⦃rest rest' : List Char⦄, hs.text depth ++ rest = hs'.text depth ++ rest' →
      hs.Clear taken → hs'.Clear taken' →
      Ends (hs.TakesElse before) hs.TakesHandler True depth rest →
      Ends (hs'.TakesElse before') hs'.TakesHandler True depth rest' → hs = hs' ∧ rest = rest'

section

variable {depth : Nat} {rest rest' : List Char}

/-- A statement does not start in a line of its own. -/
theorem Statement.core_append_ne_ownLine (s : Statement) (tail : List Char) :
    s.core depth ++ rest ≠ ownLine depth ++ tail := by
  obtain ⟨first, more, written, visible⟩ := s.exists_first depth
  rw [written]
  intro same
  rw [(List.cons.inj same).1] at visible
  cases visible

/-- A branch is read, in the line of its head or in a line of its own. -/
theorem Statement.Readable.of_branch (inline : Kind → Prop) [DecidablePred inline]
    {s s' : Statement} (h : s.Readable)
    (same : (if inline s.kind then [] else ownLine depth) ++ (s.core depth ++ rest) =
      (if inline s'.kind then [] else ownLine depth) ++ (s'.core depth ++ rest'))
    (clear : s.Clear) (clear' : s'.Clear) (ends : s.Stops depth rest)
    (ends' : s'.Stops depth rest') : s = s' ∧ rest = rest' := by
  split at same
  · split at same
    · exact h same clear clear' ends ends'
    · exact absurd same (s.core_append_ne_ownLine _)
  · split at same
    · exact absurd same.symm (s'.core_append_ne_ownLine _)
    · exact h (List.append_cancel_left same) clear clear' ends ends'

/-- The body of a loop is read.  A body in lines of its own is one level deeper, so that an `else`
behind the loop is none of its own. -/
theorem Statement.Readable.of_loopBody {s s' : Statement} (h : s.Readable)
    (same :
      (if s.kind = .block then s.core depth else ownLine depth ++ s.core (depth + 1)) ++ rest =
        (if s'.kind = .block then s'.core depth else ownLine depth ++ s'.core (depth + 1)) ++ rest')
    (clear : s.Clear) (clear' : s'.Clear) (ends : Ends False s.TakesHandler True depth rest)
    (ends' : Ends False s'.TakesHandler True depth rest') : s = s' ∧ rest = rest' := by
  have stops {s : Statement} {rest : List Char} (ends : Ends False s.TakesHandler True depth rest) :
      s.Stops (depth + 1) rest :=
    -- a new line at the depth of the body is a deeper one for the loop
    ⟨fun _ => ends.deeper _ (Nat.lt_succ_self depth),
      fun k deeper => ends.deeper k (Nat.lt_of_succ_lt deeper), ends.handler,
      fun _ => ends.sameLine trivial⟩
  split at same
  · next block =>
    split at same
    · next block' =>
      exact h same clear clear' (stops_of_block block ends.deeper)
        (stops_of_block block' ends'.deeper)
    · rw [List.append_assoc] at same
      exact absurd same (s.core_append_ne_ownLine _)
  · split at same
    · rw [List.append_assoc] at same
      exact absurd same.symm (s'.core_append_ne_ownLine _)
    · rw [List.append_assoc, List.append_assoc, List.append_cancel_left_eq] at same
      exact h same clear clear' (stops ends) (stops ends')

end

/-- Behind a guarded part there are handlers or what stands behind them all. -/
theorem Statement.stops_handlers {s : Statement} {hs : Handlers} {depth : Nat} {rest : List Char}
    (ends : Ends (hs.TakesElse s.TakesElse) hs.TakesHandler True depth rest)
    (clear : hs.Clear s.TakesHandler) : s.Stops depth (hs.text depth ++ rest) := by
  cases hs with
  | done => exact ends.mono id (fun _ => trivial) fun _ => trivial
  | final body =>
    exact .of_blank (fun taken => absurd taken clear.1) fun _ => by simp [elseWord]
  | handler parameter guard body hs =>
    exact .of_blank (fun taken => absurd taken clear.1) fun _ => by simp [elseWord]

theorem Statements.noElse_lines (ss : Statements) (depth : Nat) (rest : List Char) :
    NoElse (ss.lines (depth + 1) ++ (pad depth ++ '\x7d' :: rest)) := by
  cases ss with
  | nil => exact noElse_brace depth rest
  | cons first ss =>
    rw [lines, List.append_assoc, List.append_assoc]
    exact first.noElse_core _ _ _

theorem Statement.readable_block {body : Statements} (h : body.Readable) :
    (Statement.block body).Readable := by
  intro s' depth rest rest' same clear clear' ends ends'
  have kinds := kind_eq same
  cases s' with
  | block body' =>
    simp only [core, List.append_assoc, List.append_cancel_left_eq, List.singleton_append] at same
    obtain ⟨rfl, rest_eq⟩ := h same clear clear'
    exact ⟨rfl, rest_eq⟩
  | expression | empty | conditional | alternative | attempt | forIn | doWhile | whileDo =>
    cases kinds

theorem Statement.readable_expression (e : Expression) : (Statement.expression e).Readable := by
  intro s' depth rest rest' same clear clear' ends ends'
  have kinds := kind_eq same
  cases s' with
  | expression e' =>
    simp only [core, List.append_assoc] at same
    obtain ⟨rfl, rest_eq⟩ := Expression.eq_of_mark rfl same
    exact ⟨rfl, rest_eq⟩
  | block | empty | conditional | alternative | attempt | forIn | doWhile | whileDo => cases kinds

theorem Statement.readable_empty : Statement.empty.Readable := by
  intro s' depth rest rest' same clear clear' ends ends'
  have kinds := kind_eq same
  cases s' with
  | empty => exact ⟨rfl, List.tail_eq_of_cons_eq same⟩
  | block | expression | conditional | alternative | attempt | forIn | doWhile | whileDo =>
    cases kinds

/-- What stands behind a condition without `else` stands behind its branch. -/
theorem Statement.stops_of_conditional {test : Expression} {t : Statement} {depth : Nat}
    {rest : List Char} (ends : (conditional test t).Stops depth rest) : t.Stops depth rest :=
  ends.mono (fun taken block => (not_takes_of_block block).1 taken) id fun _ => nofun

/-- A condition without `else` is not written as one with an `else`. -/
theorem Statement.conditional_ne_alternative {test test' : Expression} {t t' e' : Statement}
    (h : t.Readable ∨ t'.Readable) {depth : Nat} {rest rest' : List Char}
    (clear : (conditional test t).Clear) (clear' : (alternative test' t' e').Clear)
    (ends : (conditional test t).Stops depth rest) :
    (conditional test t).core depth ++ rest ≠ (alternative test' t' e').core depth ++ rest' := by
  intro same
  simp only [core, List.append_assoc, List.append_cancel_left_eq] at same
  obtain ⟨rfl, branch⟩ := Expression.eq_of_mark rfl same
  have inner := stops_of_conditional ends
  have inner' := stops_else clear'.1 depth
    ((if e'.kind = .block ∨ e'.kind = .ifStatement then [] else ownLine depth) ++
      (e'.core depth ++ rest'))
  -- the branches are read alike, which leaves the `else` of one behind the other
  obtain ⟨rfl, behind⟩ : t = t' ∧ rest = _ := by
    rcases h with h | h
    · exact h.of_branch (· = .block) branch clear clear'.2.1 inner inner'
    · exact (h.of_branch (· = .block) branch.symm clear'.2.1 clear inner' inner).imp Eq.symm Eq.symm
  split at behind
  · exact ends.sameLine nofun ⟨_, behind.symm⟩
  · next other => exact ends.newLine other ⟨_, behind.symm⟩

theorem Statement.readable_conditional (test : Expression) {t : Statement} (h : t.Readable) :
    (Statement.conditional test t).Readable := by
  intro s' depth rest rest' same clear clear' ends ends'
  have kinds := kind_eq same
  cases s' with
  | conditional test' t' =>
    simp only [core, List.append_assoc, List.append_cancel_left_eq] at same
    obtain ⟨rfl, branch⟩ := Expression.eq_of_mark rfl same
    obtain ⟨rfl, rest_eq⟩ := h.of_branch (· = .block) branch clear clear'
      (stops_of_conditional ends) (stops_of_conditional ends')
    exact ⟨rfl, rest_eq⟩
  | alternative test' t' e' =>
    exact absurd same (conditional_ne_alternative (.inl h) clear clear' ends)
  | block | expression | empty | attempt | forIn | doWhile | whileDo => cases kinds

theorem Statement.readable_alternative (test : Expression) {t e : Statement} (ht : t.Readable)
    (he : e.Readable) : (Statement.alternative test t e).Readable := by
  intro s' depth rest rest' same clear clear' ends ends'
  have kinds := kind_eq same
  cases s' with
  | conditional test' t' =>
    exact absurd same.symm (conditional_ne_alternative (.inr ht) clear' clear ends')
  | alternative test' t' e' =>
    simp only [core, List.append_assoc, List.append_cancel_left_eq] at same
    obtain ⟨rfl, branch⟩ := Expression.eq_of_mark rfl same
    obtain ⟨rfl, behind⟩ := ht.of_branch (· = .block) branch clear.2.1 clear'.2.1
      (stops_else clear.1 depth _) (stops_else clear'.1 depth _)
    have inner {e : Statement} {rest : List Char} (ends : (alternative test t e).Stops depth rest) :
        e.Stops depth rest :=
      ends.mono id id fun _ => nofun
    obtain ⟨rfl, rest_eq⟩ := he.of_branch (fun k => k = .block ∨ k = .ifStatement)
      (List.append_cancel_left behind) clear.2.2 clear'.2.2 (inner ends) (inner ends')
    exact ⟨rfl, rest_eq⟩
  | block | expression | empty | attempt | forIn | doWhile | whileDo => cases kinds

theorem Statement.readable_attempt {body : Statement} {hs : Handlers} (hbody : body.Readable)
    (hhandlers : hs.Readable) : (Statement.attempt body hs).Readable := by
  intro s' depth rest rest' same clear clear' ends ends'
  have kinds := kind_eq same
  cases s' with
  | attempt body' hs' =>
    have outer {body : Statement} {hs : Handlers} {rest : List Char}
        (ends : (attempt body hs).Stops depth rest) :
        Ends (hs.TakesElse body.TakesElse) hs.TakesHandler True depth rest :=
      ends.mono id id fun _ => nofun
    simp only [core, List.append_assoc, List.append_cancel_left_eq] at same
    obtain ⟨rfl, behind⟩ := hbody same clear.1 clear'.1 (stops_handlers (outer ends) clear.2)
      (stops_handlers (outer ends') clear'.2)
    obtain ⟨rfl, rest_eq⟩ := hhandlers behind clear.2 clear'.2 (outer ends) (outer ends')
    exact ⟨rfl, rest_eq⟩
  | block | expression | empty | conditional | alternative | forIn | doWhile | whileDo =>
    cases kinds

/-- Whether a loop is one over values is read. -/
theorem eq_of_each {each each' : Bool} {rest rest' : List Char}
    (same : (if each then ['e', 'a', 'c', 'h', ' '] else []) ++ (['('] ++ rest) =
      (if each' then ['e', 'a', 'c', 'h', ' '] else []) ++ (['('] ++ rest')) :
    each = each' ∧ rest = rest' := by
  cases each <;> cases each'
  · exact ⟨rfl, List.append_cancel_left same⟩
  · cases (List.cons.inj same).1
  · cases (List.cons.inj same).1
  · exact ⟨rfl, List.append_cancel_left (List.append_cancel_left same)⟩

theorem Statement.readable_forIn (isForEach : Bool) (iterator object : Expression)
    {body : Statement} (h : body.Readable) :
    (Statement.forIn isForEach iterator object body).Readable := by
  intro s' depth rest rest' same clear clear' ends ends'
  have kinds := kind_eq same
  cases s' with
  | forIn isForEach' iterator' object' body' =>
    simp only [core, List.append_assoc, List.append_cancel_left_eq] at same
    obtain ⟨rfl, head⟩ := eq_of_each same
    obtain ⟨rfl, object⟩ := Expression.eq_of_mark rfl head
    obtain ⟨rfl, loop⟩ := Expression.eq_of_mark rfl object
    obtain ⟨rfl, rest_eq⟩ := h.of_loopBody loop clear clear' (ends.mono id id fun _ => nofun)
      (ends'.mono id id fun _ => nofun)
    exact ⟨rfl, rest_eq⟩
  | block | expression | empty | conditional | alternative | attempt | doWhile | whileDo =>
    cases kinds

theorem Statement.readable_doWhile {body : Statement} (h : body.Readable) (test : Expression) :
    (Statement.doWhile body test).Readable := by
  intro s' depth rest rest' same clear clear' ends ends'
  have kinds := kind_eq same
  cases s' with
  | doWhile body' test' =>
    have stops (s : Statement) (more : List Char) :
        s.Stops depth ([' ', 'w', 'h', 'i', 'l', 'e', ' ', '('] ++ more) :=
      .of_blank (fun _ => ⟨by simp [catchWord], by simp [finallyWord]⟩) fun _ => by simp [elseWord]
    simp only [core, List.append_assoc, List.append_cancel_left_eq] at same
    obtain ⟨rfl, behind⟩ := h same clear clear' (stops body _) (stops body' _)
    obtain ⟨rfl, rest_eq⟩ := Expression.eq_of_mark rfl (List.append_cancel_left behind)
    exact ⟨rfl, rest_eq⟩
  | block | expression | empty | conditional | alternative | attempt | forIn | whileDo =>
    cases kinds

theorem Statement.readable_whileDo (test : Expression) {body : Statement} (h : body.Readable) :
    (Statement.whileDo test body).Readable := by
  intro s' depth rest rest' same clear clear' ends ends'
  have kinds := kind_eq same
  cases s' with
  | whileDo test' body' =>
    simp only [core, List.append_assoc, List.append_cancel_left_eq] at same
    obtain ⟨rfl, loop⟩ := Expression.eq_of_mark rfl same
    obtain ⟨rfl, rest_eq⟩ := h.of_loopBody loop clear clear' (ends.mono id id fun _ => nofun)
      (ends'.mono id id fun _ => nofun)
    exact ⟨rfl, rest_eq⟩
  | block | expression | empty | conditional | alternative | attempt | forIn | doWhile =>
    cases kinds

/-- A statement of a block is not the brace that closes the block. -/
theorem Statements.cons_ne_brace (first : Statement) (ss : Statements) (depth : Nat)
    (rest rest' : List Char) :
    (cons first ss).lines (depth + 1) ++ rest ≠ pad depth ++ '\x7d' :: rest' := by
  obtain ⟨c, more, written, visible⟩ := first.exists_first (depth + 1)
  intro same
  rw [lines, written, List.append_assoc, List.append_assoc, List.cons_append] at same
  have visible : c ≠ ' ' := by
    rintro rfl
    cases visible
  have := (eq_of_pad_append visible (by decide) same).1
  omega

theorem Statements.readable_nil : Statements.nil.Readable := by
  intro ss' depth rest rest' same clear clear'
  cases ss' with
  | nil => exact ⟨rfl, List.tail_eq_of_cons_eq (List.append_cancel_left same)⟩
  | cons first ss' => exact absurd same.symm (cons_ne_brace first ss' depth _ rest)

theorem Statements.readable_cons {first : Statement} {ss : Statements} (hfirst : first.Readable)
    (hrest : ss.Readable) : (Statements.cons first ss).Readable := by
  intro ss' depth rest rest' same clear clear'
  cases ss' with
  | nil => exact absurd same (cons_ne_brace first ss depth _ rest')
  | cons first' ss' =>
    simp only [lines, List.append_assoc, List.append_cancel_left_eq, List.cons_append] at same
    obtain ⟨rfl, behind⟩ := hfirst same clear.1 clear'.1 (.of_newline (ss.noElse_lines depth rest))
      (.of_newline (ss'.noElse_lines depth rest'))
    obtain ⟨rfl, rest_eq⟩ := hrest (List.tail_eq_of_cons_eq behind) clear.2 clear'.2
    exact ⟨rfl, rest_eq⟩

/-- What is read of a handler up to its body. -/
theorem eq_of_clauseHead {parameter parameter' : Expression} {guard guard' : Option Expression}
    {rest rest' : List Char}
    (same : clauseHead parameter guard ++ rest = clauseHead parameter' guard' ++ rest') :
    parameter = parameter' ∧ guard = guard' ∧ rest = rest' := by
  have broken (guard : Option Expression) (rest : List Char) :
      Broken ((guard.elim [] fun g => [' ', 'i', 'f', ' '] ++ g.text) ++ ([')', ' '] ++ rest)) := by
    cases guard <;> exact broken_cons rfl _
  simp only [clauseHead, List.append_assoc] at same
  obtain ⟨rfl, behind⟩ := parameter.readable (broken guard rest) (broken guard' rest') same
  cases guard with
  | none =>
    cases guard' with
    | none => exact ⟨rfl, rfl, List.append_cancel_left behind⟩
    | some g' => cases (List.cons.inj behind).1
  | some g =>
    cases guard' with
    | none => cases (List.cons.inj behind).1
    | some g' =>
      simp only [Option.elim_some, List.append_assoc, List.append_cancel_left_eq] at behind
      obtain ⟨rfl, rest_eq⟩ := Expression.eq_of_mark rfl behind
      exact ⟨rfl, rfl, rest_eq⟩

theorem Handlers.readable_done : Handlers.done.Readable := by
  intro hs' before before' taken taken' depth rest rest' same clear clear' ends ends'
  cases hs' with
  | done => exact ⟨rfl, same⟩
  | final body' =>
    simp only [text, List.append_assoc, List.nil_append] at same
    exact absurd ⟨_, same.symm⟩ (ends.handler trivial).2
  | handler parameter' guard' body' hs' =>
    simp only [text, List.append_assoc, List.nil_append] at same
    exact absurd ⟨_, same.symm⟩ (ends.handler trivial).1

theorem Handlers.readable_final {body : Statement} (h : body.Readable) :
    (Handlers.final body).Readable := by
  intro hs' before before' taken taken' depth rest rest' same clear clear' ends ends'
  cases hs' with
  | done =>
    simp only [text, List.append_assoc, List.nil_append] at same
    exact absurd ⟨_, same⟩ (ends'.handler trivial).2
  | final body' =>
    have inner {body : Statement} {before : Prop} {rest : List Char}
        (ends : Ends ((final body).TakesElse before) (final body).TakesHandler True depth rest) :
        body.Stops depth rest :=
      ends.mono id id fun _ => trivial
    simp only [text, List.append_assoc, List.append_cancel_left_eq] at same
    obtain ⟨rfl, rest_eq⟩ := h same clear.2 clear'.2 (inner ends) (inner ends')
    exact ⟨rfl, rest_eq⟩
  | handler parameter' guard' body' hs' =>
    simp only [text, List.append_assoc, catchWord, finallyWord] at same
    exact absurd same (by simp)

theorem Handlers.readable_handler (parameter : Expression) (guard : Option Expression)
    {body : Statement} {hs : Handlers} (hbody : body.Readable) (hrest : hs.Readable) :
    (Handlers.handler parameter guard body hs).Readable := by
  intro hs' before before' taken taken' depth rest rest' same clear clear' ends ends'
  cases hs' with
  | done =>
    simp only [text, List.append_assoc, List.nil_append] at same
    exact absurd ⟨_, same⟩ (ends'.handler trivial).1
  | final body' =>
    simp only [text, List.append_assoc, catchWord, finallyWord] at same
    exact absurd same (by simp)
  | handler parameter' guard' body' hs' =>
    simp only [text, List.append_assoc, List.append_cancel_left_eq] at same
    obtain ⟨rfl, rfl, clause⟩ := eq_of_clauseHead same
    obtain ⟨rfl, behind⟩ := hbody clause clear.2.1 clear'.2.1
      (Statement.stops_handlers ends clear.2.2) (Statement.stops_handlers ends' clear'.2.2)
    obtain ⟨rfl, rest_eq⟩ := hrest behind clear.2.2 clear'.2.2 ends ends'
    exact ⟨rfl, rest_eq⟩

mutual

/-- **Statements can be read off a text in one way**, if they are clear and nothing behind them is
taken for a part of them. -/
theorem Statement.readable : ∀ s : Statement, s.Readable
  | .block body => Statement.readable_block body.readable
  | .expression e => Statement.readable_expression e
  | .empty => Statement.readable_empty
  | .conditional test t => Statement.readable_conditional test t.readable
  | .alternative test t e => Statement.readable_alternative test t.readable e.readable
  | .attempt body hs => Statement.readable_attempt body.readable hs.readable
  | .forIn isForEach iterator object body =>
    Statement.readable_forIn isForEach iterator object body.readable
  | .doWhile body test => Statement.readable_doWhile body.readable test
  | .whileDo test body => Statement.readable_whileDo test body.readable

theorem Statements.readable : ∀ ss : Statements, ss.Readable
  | .nil => Statements.readable_nil
  | .cons first ss => Statements.readable_cons first.readable ss.readable

theorem Handlers.readable : ∀ hs : Handlers, hs.Readable
  | .done => Handlers.readable_done
  | .final body => Handlers.readable_final body.readable
  | .handler parameter guard body hs =>
    Handlers.readable_handler parameter guard body.readable hs.readable

end

end Grammar

end SyntaxForest
