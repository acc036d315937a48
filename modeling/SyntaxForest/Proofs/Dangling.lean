import SyntaxForest.Proofs.Programs

/-!
# Dangling parts

Source text puts the parts of a statement one behind the other, and only braces show where a part
ends.  A part that is an `if` without `else`, or that ends with one, would take an `else` behind it
for its own; and a part that is a `try` without `finally`, or that ends with one, would take a
handler behind it.  What belongs to a node and stands behind such a part is *dangling*
(`Forest.Dangles`).

A tree without dangling parts is *clear*, and then so is the statement that it spells
(`Statement.clear_of_in`).  Statements that end by themselves, as blocks do, take nothing, so a tree
is clear where nothing but these has something behind it (`clear_of_all`).
-/

namespace SyntaxForest

namespace Forest

variable (f : Forest)

/-- The parts of a guarded block that are written one behind the other, from the first handler on:
the bodies of the handlers, and what is done in every case. -/
def handlingParts (clauses : List Link) (last : Link) : List Link :=
  clauses.map (f.child · .handlerBody) ++ if last.isNone then [] else [last]

/-- All parts of a guarded block in the order in which they are written. -/
def guardedParts (c : Contents.TryStatement) : List Link :=
  c.tryBlock :: f.handlingParts c.catchClauses c.finallyBlock

/-- An `else` in a line of its own would be taken for a part of the tree. -/
inductive TakesElse : Link → Prop where
  | conditional {x : Link} {c : Contents.IfStatement} (hc : f.contents? x = some (.ifStatement c))
      (absent : c.elsePart = none) (open_ : f.kind? c.thenPart ≠ some .block) : TakesElse x
  | alternative {x : Link} {c : Contents.IfStatement} (hc : f.contents? x = some (.ifStatement c))
      (taken : TakesElse c.elsePart) : TakesElse x
  | attempt {x part : Link} {c : Contents.TryStatement}
      (hc : f.contents? x = some (.tryStatement c))
      (hpart : (f.guardedParts c).getLast? = some part) (taken : TakesElse part) : TakesElse x

/-- A handler would be taken for a part of the tree. -/
inductive TakesHandler : Link → Prop where
  | attempt {x : Link} {c : Contents.TryStatement} (hc : f.contents? x = some (.tryStatement c))
      (absent : c.finallyBlock = none) : TakesHandler x
  | final {x : Link} {c : Contents.TryStatement} (hc : f.contents? x = some (.tryStatement c))
      (taken : TakesHandler c.finallyBlock) : TakesHandler x
  | conditional {x : Link} {c : Contents.IfStatement} (hc : f.contents? x = some (.ifStatement c))
      (absent : c.elsePart = none) (taken : TakesHandler c.thenPart) : TakesHandler x
  | alternative {x : Link} {c : Contents.IfStatement} (hc : f.contents? x = some (.ifStatement c))
      (taken : TakesHandler c.elsePart) : TakesHandler x
  | forIn {x : Link} {c : Contents.ForInLoop} (hc : f.contents? x = some (.forInLoop c))
      (taken : TakesHandler c.loop.body) : TakesHandler x
  | whileDo {x : Link} {c : Contents.WhileLoop} (hc : f.contents? x = some (.whileLoop c))
      (taken : TakesHandler c.loop.body) : TakesHandler x

/-- Something that belongs to the node stands behind a part that would take it. -/
inductive Dangles (x : Link) : Prop where
  | alternative {c : Contents.IfStatement} (hc : f.contents? x = some (.ifStatement c))
      (present : c.elsePart.isSome) (taken : f.TakesElse c.thenPart)
  | handler {c : Contents.TryStatement} (hc : f.contents? x = some (.tryStatement c)) {part : Link}
      (inner : part ∈ (f.guardedParts c).dropLast) (taken : f.TakesHandler part)

/-- Nothing in the tree is dangling. -/
def Clear (x : Link) : Prop := ∀ y ∈ f.preorder x, ¬ f.Dangles (some y)

variable {f}

/-- What dangles nowhere in a tree dangles nowhere in the tree of a child. -/
theorem Clear.of_link (hf : f.Linked) {x : Link} (h : f.Clear x) {c : Contents}
    (hc : f.contents? x = some c) {a : Link} (ha : a ∈ c.links) : f.Clear a :=
  fun y hy => h y (hf.preorder_subset hc ha hy)

theorem Clear.not_dangles (hf : f.Linked) {x : Link} (h : f.Clear x) {c : Contents}
    (hc : f.contents? x = some c) : ¬ f.Dangles x := by
  cases x with
  | none => cases hc
  | some x => exact h x (hf.mem_preorder_self (contains_of_contents? hc))

/-- What is done in every case is the last part. -/
theorem handlingParts_nil {last : Link} (present : last.isSome) :
    f.handlingParts [] last = [last] := by
  rw [handlingParts, Option.isNone_eq_false_iff.mpr present]
  rfl

/-- The body of the first handler comes first. -/
theorem handlingParts_cons {x : Link} {c : Contents.CatchClause}
    (hc : f.contents? x = some (.catchClause c)) (clauses : List Link) (last : Link) :
    f.handlingParts (x :: clauses) last = c.body :: f.handlingParts clauses last := by
  have body : f.child x .handlerBody = c.body := by
    rw [child, hc]
    exact Option.join_some
  rw [handlingParts, List.map_cons, body]
  rfl

/-! ## Parts that end by themselves -/

end Forest

/-- Statements of these kinds end with a brace, a semicolon or a parenthesis of their own, and take
nothing that stands behind them. -/
def Kind.endsItself : Kind → Bool
  | .ifStatement | .tryStatement | .forInLoop | .whileLoop => false
  | _ => true

namespace Forest

/-- Whether every part of the node that has something behind it ends by itself. -/
def isSettled (f : Forest) (x : Link) : Bool :=
  match f.contents? x with
  | some (.ifStatement c) => c.elsePart.isNone || (f.kind? c.thenPart).all Kind.endsItself
  | some (.tryStatement c) =>
    (f.guardedParts c).dropLast.all fun part => (f.kind? part).all Kind.endsItself
  | _ => true

variable {f : Forest} {x : Link}

theorem TakesElse.not_endsItself (h : f.TakesElse x) :
    (f.kind? x).all Kind.endsItself = false := by
  cases h with
  | conditional hc | alternative hc | attempt hc => rw [kind?_of_contents? hc]; rfl

theorem TakesHandler.not_endsItself (h : f.TakesHandler x) :
    (f.kind? x).all Kind.endsItself = false := by
  cases h with
  | attempt hc | final hc | conditional hc | alternative hc | forIn hc | whileDo hc =>
    rw [kind?_of_contents? hc]; rfl

/-- **A tree is clear if every part that has something behind it ends by itself.** -/
theorem clear_of_isSettled (h : ∀ y ∈ f.preorder x, f.isSettled (some y)) : f.Clear x := by
  intro y hy dangles
  have settled := h y hy
  unfold isSettled at settled
  cases dangles with
  | alternative hc present taken =>
    simp [hc, taken.not_endsItself, Option.isSome_iff_ne_none.mp present] at settled
  | handler hc inner taken =>
    rw [hc] at settled
    have ends := List.all_eq_true.mp settled _ inner
    rw [taken.not_endsItself] at ends
    cases ends

end Forest

/-! ## Statements of clear trees -/

namespace Grammar

variable {f : Forest}

mutual

/-- What takes an `else` as a statement takes one as a tree. -/
theorem Statement.takesElse_of_in : ∀ (s : Statement) {x : Link}, s.In f x → s.TakesElse →
    f.TakesElse x
  | .conditional test t, x, h, taken => by
    obtain ⟨c, hc, -, hthen, absent⟩ := h
    refine .conditional hc absent ?_
    rw [Statement.kind?_of_in hthen]
    exact fun block => taken (Option.some.inj block)
  | .alternative test t e, x, h, taken => by
    obtain ⟨c, hc, -, -, helse⟩ := h
    exact .alternative hc (e.takesElse_of_in helse taken)
  | .attempt body hs, x, h, taken => by
    obtain ⟨c, hc, hbody, hhs⟩ := h
    obtain ⟨part, hpart, taken⟩ :=
      hs.takesElse_of_in hhs (fun taken => body.takesElse_of_in hbody taken) taken
    exact .attempt hc hpart taken

/-- The same for the last of the handlers, or for what stands before them if there are none. -/
theorem Handlers.takesElse_of_in : ∀ (hs : Handlers) {clauses : List Link} {last : Link},
    hs.In f clauses last → ∀ {before : Link} {taken : Prop}, (taken → f.TakesElse before) →
      hs.TakesElse taken →
        ∃ part, (before :: f.handlingParts clauses last).getLast? = some part ∧ f.TakesElse part
  | .done, clauses, last, h, before, taken, hbefore, h' => by
    obtain ⟨rfl, rfl⟩ := h
    exact ⟨before, rfl, hbefore h'⟩
  | .final body, clauses, last, h, before, taken, hbefore, h' => by
    obtain ⟨rfl, hlast⟩ := h
    rw [Forest.handlingParts_nil (Statement.isSome_of_in hlast)]
    exact ⟨last, rfl, body.takesElse_of_in hlast h'⟩
  | .handler parameter guard body hs, clauses, last, h, before, taken, hbefore, h' => by
    obtain ⟨x, more, c, rfl, hc, -, -, hbody, hmore⟩ := h
    rw [Forest.handlingParts_cons hc, List.getLast?_cons_cons]
    exact hs.takesElse_of_in hmore (fun taken => body.takesElse_of_in hbody taken) h'

end

mutual

/-- What takes a handler as a statement takes one as a tree. -/
theorem Statement.takesHandler_of_in : ∀ (s : Statement) {x : Link}, s.In f x →
    s.TakesHandler → f.TakesHandler x
  | .conditional test t, x, h, taken => by
    obtain ⟨c, hc, -, hthen, absent⟩ := h
    exact .conditional hc absent (t.takesHandler_of_in hthen taken)
  | .alternative test t e, x, h, taken => by
    obtain ⟨c, hc, -, -, helse⟩ := h
    exact .alternative hc (e.takesHandler_of_in helse taken)
  | .attempt body hs, x, h, taken => by
    obtain ⟨c, hc, -, hhs⟩ := h
    rcases hs.takesHandler_of_in hhs taken with absent | taken
    · exact .attempt hc absent
    · exact .final hc taken
  | .forIn isForEach iterator object body, x, h, taken => by
    obtain ⟨c, hc, -, -, -, hbody⟩ := h
    exact .forIn hc (body.takesHandler_of_in hbody taken)
  | .whileDo test body, x, h, taken => by
    obtain ⟨c, hc, -, hbody⟩ := h
    exact .whileDo hc (body.takesHandler_of_in hbody taken)

theorem Handlers.takesHandler_of_in : ∀ (hs : Handlers) {clauses : List Link} {last : Link},
    hs.In f clauses last → hs.TakesHandler → last = none ∨ f.TakesHandler last
  | .done, clauses, last, h, _ => .inl h.2
  | .final body, clauses, last, h, taken => .inr (body.takesHandler_of_in h.2 taken)
  | .handler parameter guard body hs, clauses, last, h, taken => by
    obtain ⟨x, more, c, -, -, -, -, -, hmore⟩ := h
    exact hs.takesHandler_of_in hmore taken

end

mutual

/-- **Where nothing dangles, the statement is clear.** -/
theorem Statement.clear_of_in (hf : f.Linked) : ∀ (s : Statement) {x : Link}, s.In f x →
    f.Clear x → s.Clear
  | .block body, x, h, clear => by
    obtain ⟨c, hc, hbody⟩ := h
    exact body.clear_of_in hf hbody fun a ha => clear.of_link hf hc ha
  | .expression e, x, h, clear => trivial
  | .empty, x, h, clear => trivial
  | .conditional test t, x, h, clear => by
    obtain ⟨c, hc, -, hthen, -⟩ := h
    exact t.clear_of_in hf hthen (clear.of_link hf hc (by simp [Contents.links]))
  | .alternative test t e, x, h, clear => by
    obtain ⟨c, hc, -, hthen, helse⟩ := h
    have inside {a : Link} (ha : a ∈ [c.condition, c.thenPart, c.elsePart]) : f.Clear a :=
      clear.of_link hf hc ha
    refine ⟨fun taken => ?_, t.clear_of_in hf hthen (inside (by simp)),
      e.clear_of_in hf helse (inside (by simp))⟩
    exact clear.not_dangles hf hc
      (.alternative hc (Statement.isSome_of_in helse) (t.takesElse_of_in hthen taken))
  | .attempt body hs, x, h, clear => by
    obtain ⟨c, hc, hbody, hhs⟩ := h
    have inside {a : Link} (ha : a ∈ c.tryBlock :: (c.catchClauses ++ [c.finallyBlock])) :
        f.Clear a :=
      clear.of_link hf hc ha
    refine ⟨body.clear_of_in hf hbody (inside (by simp)), ?_⟩
    -- whatever is not the last part has a handler or the last part behind it
    refine hs.clear_of_in hf hhs (fun a ha => inside (by simp [ha])) (inside (by simp))
      (fun taken => body.takesHandler_of_in hbody taken) fun part inner taken => ?_
    exact clear.not_dangles hf hc (.handler hc inner taken)
  | .forIn isForEach iterator object body, x, h, clear => by
    obtain ⟨c, hc, -, -, -, hbody⟩ := h
    exact body.clear_of_in hf hbody (clear.of_link hf hc (by simp [Contents.links]))
  | .doWhile body test, x, h, clear => by
    obtain ⟨c, hc, hbody, -⟩ := h
    exact body.clear_of_in hf hbody (clear.of_link hf hc (by simp [Contents.links]))
  | .whileDo test body, x, h, clear => by
    obtain ⟨c, hc, -, hbody⟩ := h
    exact body.clear_of_in hf hbody (clear.of_link hf hc (by simp [Contents.links]))

theorem Statements.clear_of_in (hf : f.Linked) : ∀ (ss : Statements) {xs : List Link},
    ss.In f xs → (∀ x ∈ xs, f.Clear x) → ss.Clear
  | .nil, xs, h, clear => trivial
  | .cons first rest, xs, h, clear => by
    obtain ⟨x, more, rfl, hx, hmore⟩ := h
    exact ⟨first.clear_of_in hf hx (clear x List.mem_cons_self),
      rest.clear_of_in hf hmore fun y hy => clear y (List.mem_cons_of_mem x hy)⟩

/-- The same for handlers behind a part.  All parts but the last have something behind them. -/
theorem Handlers.clear_of_in (hf : f.Linked) : ∀ (hs : Handlers) {clauses : List Link}
    {last : Link}, hs.In f clauses last → (∀ x ∈ clauses, f.Clear x) → f.Clear last →
      ∀ {before : Link} {taken : Prop}, (taken → f.TakesHandler before) →
        (∀ part ∈ (before :: f.handlingParts clauses last).dropLast, ¬ f.TakesHandler part) →
          hs.Clear taken
  | .done, clauses, last, h, clear, clearLast, before, taken, hbefore, apart => trivial
  | .final body, clauses, last, h, clear, clearLast, before, taken, hbefore, apart => by
    obtain ⟨rfl, hlast⟩ := h
    rw [Forest.handlingParts_nil (Statement.isSome_of_in hlast)] at apart
    exact ⟨fun taken => apart before (by simp) (hbefore taken),
      body.clear_of_in hf hlast clearLast⟩
  | .handler parameter guard body hs, clauses, last, h, clear, clearLast, before, taken, hbefore,
      apart => by
    obtain ⟨x, more, c, rfl, hc, -, -, hbody, hmore⟩ := h
    rw [Forest.handlingParts_cons hc, List.dropLast_cons_cons, List.forall_mem_cons] at apart
    have own := clear x List.mem_cons_self
    refine ⟨fun taken => apart.1 (hbefore taken),
      body.clear_of_in hf hbody (own.of_link hf hc (by simp [Contents.links])), ?_⟩
    exact hs.clear_of_in hf hmore (fun y hy => clear y (List.mem_cons_of_mem x hy)) clearLast
      (fun taken => body.takesHandler_of_in hbody taken) apart.2

end

end Grammar

end SyntaxForest
