import Mathlib.Data.List.Pairwise
import SyntaxForest.Proofs.Grammar
import SyntaxForest.Proofs.Linked
import SyntaxForest.Proofs.Slots

/-!
# Programs in a forest

A tree is a *program* if nothing that it needs is missing, and if statements, expressions and leaves
are what they should be wherever they stand (`Forest.Program`).  A program spells a phrase of the
grammar: `Statement.In` says of a statement that it is what stands under a link, and
`exists_statement` that something does.

Walking down a linked forest comes to an end, and that is said once, as an induction over links
(`Linked.links_induction`).
-/

namespace SyntaxForest

/-! ## What a program has -/

/-- Kinds that stand where an expression is demanded. -/
def Kind.isExpression : Kind → Bool
  | .name | .numberLiteral | .stringLiteral | .keywordLiteral | .arrayLiteral
  | .objectLiteral => true
  | _ => false

/-- Whether a program may have a kind in a slot: statements in some, expressions in the others. -/
def ChildSlot.fits : ChildSlot → Kind → Bool
  | .thenPart | .elsePart | .tryBlock | .finallyBlock | .handlerBody | .body => Kind.isStatement
  | .left | .right | .expression | .condition | .varName | .guard | .iterator
  | .iteratedObject => Kind.isExpression

/-- Whether a program may have a link in a slot, given the kinds of all nodes.  Required slots are
not empty. -/
def ChildSlot.suits (kind? : Link → Option Kind) (slot : ChildSlot) (x : Link) : Bool :=
  if x.isNone then !slot.isRequired else (kind? x).any slot.fits

namespace Contents

/-- Whether a program may have such contents besides its slots: identifiers and numbers are words,
quotes are quotes, arrays hold expressions and elisions, and blocks hold statements.  What the
lists of objects and of guarded blocks hold is no matter of programs: no forest has anything else in
them than what they demand (`Linked.entries`). -/
def isLegible (kind? : Link → Option Kind) : Contents → Bool
  | .name c => isIdentifier c.identifier.toList
  | .numberLiteral c => c.token.any fun token => isNumeral token.toList
  | .stringLiteral c => c.quote == '\x27' || c.quote == '"'
  | .arrayLiteral c =>
    c.elements.all fun x => (kind? x).any fun k => k.isExpression || k == .emptyExpression
  | .block c => c.statements.all fun x => (kind? x).any Kind.isStatement
  | _ => true

/-- Whether a program may have a node with such contents. -/
def isProper (kind? : Link → Option Kind) (c : Contents) : Bool :=
  c.isLegible kind? && ChildSlot.all.all fun slot => (c.child? slot).all (slot.suits kind?)

/-- What stands in a slot is among the links. -/
theorem mem_links_of_child? {c : Contents} {slot : ChildSlot} {a : Link}
    (h : c.child? slot = some a) : a ∈ c.links := by
  unfold child? at h
  split at h <;> cases h <;> simp [links]

/-- What stands in a list is among the links. -/
theorem mem_links_of_list? {c : Contents} {slot : ListSlot} {xs : List Link}
    (h : c.list? slot = some xs) {a : Link} (ha : a ∈ xs) : a ∈ c.links := by
  unfold list? at h
  split at h <;> cases h <;> simp [links, ha]

variable {kind? : Link → Option Kind} {c : Contents}

/-- What stands in a slot of a program. -/
theorem suits_of_isProper (h : c.isProper kind?) {slot : ChildSlot} {x : Link}
    (hx : c.child? slot = some x) : slot.suits kind? x := by
  have all := List.all_eq_true.mp (Bool.and_eq_true_iff.mp h).2 slot slot.mem_all
  rwa [hx] at all

theorem exists_of_required (h : c.isProper kind?) {slot : ChildSlot} {x : Link}
    (hx : c.child? slot = some x) (required : slot.isRequired) :
    ∃ k, kind? x = some k ∧ slot.fits k := by
  have suits := suits_of_isProper h hx
  cases x with
  | none => simp [ChildSlot.suits, required] at suits
  | some x => simpa [ChildSlot.suits, Option.any_eq_true] using suits

theorem exists_of_optional (h : c.isProper kind?) {slot : ChildSlot} {x : Link}
    (hx : c.child? slot = some x) : x = none ∨ ∃ k, kind? x = some k ∧ slot.fits k := by
  have suits := suits_of_isProper h hx
  cases x with
  | none => exact .inl rfl
  | some x => exact .inr (by simpa [ChildSlot.suits, Option.any_eq_true] using suits)

end Contents

namespace Forest

/-- Whether a program may have the node that a link names. -/
def isProper (f : Forest) (x : Link) : Bool := (f.contents? x).all (·.isProper f.kind?)

/-- Every node of a tree may stand in a program. -/
def Proper (f : Forest) (x : Link) : Prop := ∀ y ∈ f.preorder x, f.isProper (some y)

/-- A tree is a program.  An elision or a property stands in a literal and not for itself. -/
structure Program (f : Forest) (x : NodeIndex) : Prop where
  known : f.contains (some x)
  proper : f.Proper (some x)
  notElision : f.kind? (some x) ≠ some .emptyExpression
  notProperty : f.kind? (some x) ≠ some .objectProperty

variable {f : Forest}

/-! ## Going down -/

namespace Linked

variable (hf : f.Linked)
include hf

/-- **What holds of a link if it holds of the links of its node holds of all links.** -/
theorem links_induction {motive : Link → Prop}
    (step : ∀ x, (∀ c, f.contents? x = some c → ∀ a ∈ c.links, motive a) → motive x) :
    ∀ x, motive x
  | none => step none fun _ hc => by cases hc
  | some x => by
    induction hn : f.rank x using Nat.strongRecOn generalizing x with
    | ind n ih =>
      refine step (some x) fun c hc a ha => ?_
      cases a with
      | none => exact step none fun _ hc => by cases hc
      | some y =>
        have lower := hf.rank_lt x y (mem_children_iff.mpr ⟨c, hc, ha⟩)
        exact ih _ (hn ▸ lower) y rfl

/-- No child stands in two slots. -/
theorem child_ne {x : Link} (slot slot' : ChildSlot) (different : slot ≠ slot')
    {y : NodeIndex} (h : f.child x slot' = some y) : f.child x slot ≠ some y := by
  -- what the slots store, slot by slot, is a part of the children
  have nodup := (f.stored_perm x).nodup_iff.mpr (hf.nodup_children x)
  rw [stored, List.filterMap_append, List.filterMap_map] at nodup
  have apart := List.pairwise_filterMap.mp (List.nodup_append'.mp nodup).1
  have : Std.Symm fun a b : ChildSlot =>
      ∀ y, (id ∘ f.child x) a = some y → ∀ z, (id ∘ f.child x) b = some z → y ≠ z :=
    ⟨fun _ _ apart y hy z hz same => apart z hz y hy same.symm⟩
  exact fun same => apart.forall slot.mem_all slot'.mem_all different y same y h rfl

/-- The tree of a child is in the tree of its parent. -/
theorem preorder_subset {x : Link} {c : Contents} (hc : f.contents? x = some c) {a : Link}
    (ha : a ∈ c.links) : f.preorder a ⊆ f.preorder x := by
  have hx := contains_of_contents? hc
  cases a with
  | none =>
    rw [preorder_of_not_contains contains_none]
    exact List.nil_subset _
  | some y =>
    cases x with
    | none => cases hc
    | some x =>
      rw [hf.preorder_eq hx]
      refine fun z hz => List.mem_cons_of_mem x (List.mem_flatMap.mpr ⟨y, ?_, hz⟩)
      exact mem_children_iff.mpr ⟨c, hc, ha⟩

/-- A node is in its tree. -/
theorem isProper_of_proper {x : Link} (h : f.Proper x) {c : Contents}
    (hc : f.contents? x = some c) : c.isProper f.kind? := by
  cases x with
  | none => cases hc
  | some x =>
    have own := h x (hf.mem_preorder_self (contains_of_contents? hc))
    rwa [isProper, hc] at own

/-- The entries of a list are of the kind that the list demands. -/
theorem kind?_of_entry {x : Link} {c : Contents} (hc : f.contents? x = some c) (slot : ListSlot)
    {xs : List Link} (hlist : c.list? slot = some xs) {a : Link} (ha : a ∈ xs) {k : Kind}
    (demand : slot.entryKind? c.kind = some k) : f.kind? a = some k := by
  have entry : a ∈ f.list x slot := by rwa [list, hc, Option.bind_some, hlist]
  obtain ⟨kind, hkind, demanded⟩ := hf.entries (kind?_of_contents? hc) entry
  rw [hkind, demanded k demand]

theorem proper_of_link {x : Link} (h : f.Proper x) {c : Contents} (hc : f.contents? x = some c)
    {a : Link} (ha : a ∈ c.links) : f.Proper a :=
  fun y hy => h y (hf.preorder_subset hc ha hy)

end Linked

end Forest

namespace Grammar

variable (f : Forest)

/-! ## What stands under a link -/

/-- The word stands under a link. -/
def wordIn (x : Link) : Word → Prop
  | .identifier cs _ => ∃ c, f.contents? x = some (.name c) ∧ c.identifier.toList = cs
  | .number cs _ => ∃ c token, f.contents? x = some (.numberLiteral c) ∧
      c.token = some token ∧ token.toList = cs
  | .keyword k => ∃ c, f.contents? x = some (.keywordLiteral c) ∧ c.keyword = k

mutual

/-- The expression stands under a link. -/
def Expression.In : Expression → Link → Prop
  | .word w, x => wordIn f x w
  | .string quote value, x => ∃ c, f.contents? x = some (.stringLiteral c) ∧
      c.quote = quote.char ∧ c.value.toList = value
  | .array elements, x => ∃ c, f.contents? x = some (.arrayLiteral c) ∧ elements.In c.elements
  | .object elements, x => ∃ c, f.contents? x = some (.objectLiteral c) ∧ elements.In c.elements

/-- The elements stand under some links. -/
def Elements.In : Elements → List Link → Prop
  | .nil, xs => xs = []
  | .elision rest, xs => ∃ x more, xs = x :: more ∧ f.kind? x = some .emptyExpression ∧
      rest.In more
  | .element e rest, xs => ∃ x more, xs = x :: more ∧ e.In x ∧ rest.In more
  | .property key value rest, xs => ∃ x more c, xs = x :: more ∧
      f.contents? x = some (.objectProperty c) ∧ key.In c.left ∧ value.In c.right ∧ rest.In more

end

/-- The guard of a handler stands under a link, or there is none. -/
def guardIn (x : Link) : Option Expression → Prop
  | none => x = none
  | some g => g.In f x

mutual

/-- The statement stands under a link. -/
def Statement.In : Statement → Link → Prop
  | .block body, x => ∃ c, f.contents? x = some (.block c) ∧ body.In c.statements
  | .expression e, x => ∃ c, f.contents? x = some (.expressionStatement c) ∧ e.In f c.expression
  | .empty, x => f.kind? x = some .emptyStatement
  | .conditional test thenPart, x => ∃ c, f.contents? x = some (.ifStatement c) ∧
      test.In f c.condition ∧ thenPart.In c.thenPart ∧ c.elsePart = none
  | .alternative test thenPart elsePart, x => ∃ c, f.contents? x = some (.ifStatement c) ∧
      test.In f c.condition ∧ thenPart.In c.thenPart ∧ elsePart.In c.elsePart
  | .attempt body handlers, x => ∃ c, f.contents? x = some (.tryStatement c) ∧
      body.In c.tryBlock ∧ handlers.In c.catchClauses c.finallyBlock
  | .forIn isForEach iterator object body, x => ∃ c, f.contents? x = some (.forInLoop c) ∧
      c.isForEach = isForEach ∧ iterator.In f c.iterator ∧ object.In f c.iteratedObject ∧
      body.In c.loop.body
  | .doWhile body test, x => ∃ c, f.contents? x = some (.doLoop c) ∧ body.In c.loop.body ∧
      test.In f c.condition
  | .whileDo test body, x => ∃ c, f.contents? x = some (.whileLoop c) ∧ test.In f c.condition ∧
      body.In c.loop.body

/-- The statements stand under some links. -/
def Statements.In : Statements → List Link → Prop
  | .nil, xs => xs = []
  | .cons first rest, xs => ∃ x more, xs = x :: more ∧ first.In x ∧ rest.In more

/-- The handlers stand under some links, and what is done in every case under another. -/
def Handlers.In : Handlers → List Link → Link → Prop
  | .done, xs, last => xs = [] ∧ last = none
  | .final body, xs, last => xs = [] ∧ body.In last
  | .handler parameter guard body rest, xs, last => ∃ x more c, xs = x :: more ∧
      f.contents? x = some (.catchClause c) ∧ parameter.In f c.varName ∧
      guardIn f c.guard guard ∧ body.In c.body ∧ rest.In more last

end

variable {f}

/-- The kind of the node tells the kind of the statement. -/
theorem Statement.kind?_of_in {s : Statement} {x : Link} (h : s.In f x) :
    f.kind? x = some s.kind := by
  cases s with
  | empty => exact h
  | block | expression | conditional | alternative | attempt | forIn | doWhile | whileDo =>
    obtain ⟨c, hc, -⟩ := h
    exact Forest.kind?_of_contents? hc

theorem Statement.isSome_of_in {s : Statement} {x : Link} (h : s.In f x) : x.isSome := by
  have known := kind?_of_in h
  cases x with
  | none => cases known
  | some x => rfl

/-! ## Something stands there -/

/-- What is needed of a link for it to be an element of a literal. -/
inductive IsElement (f : Forest) (x : Link) : Prop where
  | elision (h : f.kind? x = some .emptyExpression)
  | element (e : Expression) (h : e.In f x)
  | property (c : Contents.ObjectProperty) (key value : Expression)
    (hc : f.contents? x = some (.objectProperty c)) (hkey : key.In f c.left)
    (hvalue : value.In f c.right)

theorem exists_elements {xs : List Link} (h : ∀ x ∈ xs, IsElement f x) :
    ∃ es : Elements, es.In f xs := by
  induction xs with
  | nil => exact ⟨.nil, rfl⟩
  | cons x xs ih =>
    obtain ⟨es, hes⟩ := ih fun y hy => h y (List.mem_cons_of_mem x hy)
    cases h x List.mem_cons_self with
    | elision hx => exact ⟨.elision es, x, xs, rfl, hx, hes⟩
    | element e he => exact ⟨.element e es, x, xs, rfl, he, hes⟩
    | property c key value hc hkey hvalue =>
      exact ⟨.property key value es, x, xs, c, rfl, hc, hkey, hvalue, hes⟩

/-- The word stands where a leaf of a program is. -/
theorem exists_identifier {x : Link} {c : Contents.Name} (hc : f.contents? x = some (.name c))
    (legible : isIdentifier c.identifier.toList) : ∃ e : Expression, e.In f x :=
  ⟨.word (.identifier _ legible), c, hc, rfl⟩

theorem exists_number {x : Link} {c : Contents.NumberLiteral}
    (hc : f.contents? x = some (.numberLiteral c))
    (legible : c.token.any fun token => isNumber token.toList) :
    ∃ e : Expression, e.In f x := by
  obtain ⟨token, htoken, valid⟩ := (Option.any_eq_true _ _).mp legible
  exact ⟨.word (.number _ valid), c, token, hc, htoken, rfl⟩

theorem exists_string {x : Link} {c : Contents.StringLiteral}
    (hc : f.contents? x = some (.stringLiteral c))
    (legible : c.quote == '\x27' || c.quote == '"') : ∃ e : Expression, e.In f x := by
  rcases Bool.or_eq_true_iff.mp legible with single | double
  · exact ⟨.string .single _, c, hc, beq_iff_eq.mp single, rfl⟩
  · exact ⟨.string .double _, c, hc, beq_iff_eq.mp double, rfl⟩

/-- What stands under a link as an expression, or as a property of an object. -/
structure Expresses (f : Forest) (x : Link) : Prop where
  expression : ∀ k, f.kind? x = some k → k.isExpression → ∃ e : Expression, e.In f x
  property : f.kind? x = some .objectProperty → ∃ c, ∃ key value : Expression,
    f.contents? x = some (.objectProperty c) ∧ key.In f c.left ∧ value.In f c.right

/-- What stands in a required slot for expressions. -/
theorem exists_expression {c : Contents} (own : c.isProper f.kind?) (slot : ChildSlot) {a : Link}
    (ha : c.child? slot = some a) (required : slot.isRequired)
    (fits : slot.fits = Kind.isExpression) (h : Expresses f a) : ∃ e : Expression, e.In f a := by
  obtain ⟨k, hk, expression⟩ := Contents.exists_of_required own ha required
  exact h.expression k hk (fits ▸ expression)

/-- **In a program an expression stands where one is demanded.** -/
theorem expresses (hf : f.Linked) (x : Link) (proper : f.Proper x) : Expresses f x := by
  induction x using hf.links_induction with
  | step x ih =>
    have inside {c : Contents} (hc : f.contents? x = some c) {a : Link} (ha : a ∈ c.links) :
        Expresses f a :=
      ih c hc a ha (hf.proper_of_link proper hc ha)
    constructor
    · intro k hk expression
      obtain ⟨c, hc, rfl⟩ := hf.intact.exists_contents? hk (by cases k <;> cases expression <;> rfl)
      have own := hf.isProper_of_proper proper hc
      have legible := (Bool.and_eq_true_iff.mp own).1
      cases c with
      | name c => exact exists_identifier hc legible
      | numberLiteral c =>
        refine exists_number hc ?_
        obtain ⟨token, htoken, digits⟩ := (Option.any_eq_true _ _).mp legible
        exact (Option.any_eq_true _ _).mpr ⟨token, htoken, isNumber_of_isNumeral digits⟩
      | stringLiteral c => exact exists_string hc legible
      | keywordLiteral c => exact ⟨.word (.keyword c.keyword), c, hc, rfl⟩
      | arrayLiteral c =>
        have elements : ∀ a ∈ c.elements, IsElement f a := by
          intro a ha
          obtain ⟨k, hk, fits⟩ := (Option.any_eq_true _ _).mp (List.all_eq_true.mp legible a ha)
          rcases Bool.or_eq_true_iff.mp fits with expression | elision
          · obtain ⟨e, he⟩ := (inside hc ha).expression k hk expression
            exact .element e he
          · exact .elision (hk.trans (congrArg some (beq_iff_eq.mp elision)))
        obtain ⟨es, hes⟩ := exists_elements elements
        exact ⟨.array es, c, hc, hes⟩
      | objectLiteral c =>
        -- no property is an expression, so this case needs the other half of the hypothesis
        have elements : ∀ a ∈ c.elements, IsElement f a := by
          intro a ha
          have hk := hf.kind?_of_entry hc .elements rfl ha rfl
          obtain ⟨c, key, value, hc, hkey, hvalue⟩ := (inside hc ha).property hk
          exact .property c key value hc hkey hvalue
        obtain ⟨es, hes⟩ := exists_elements elements
        exact ⟨.object es, c, hc, hes⟩
      | _ => cases expression
    · intro hk
      obtain ⟨c, hc, hkind⟩ := hf.intact.exists_contents? hk rfl
      have own := hf.isProper_of_proper proper hc
      cases c with
      | objectProperty c =>
        obtain ⟨key, hkey⟩ :=
          exists_expression own .left rfl rfl rfl (inside hc (by simp [Contents.links]))
        obtain ⟨value, hvalue⟩ :=
          exists_expression own .right rfl rfl rfl (inside hc (by simp [Contents.links]))
        exact ⟨c, key, value, hc, hkey, hvalue⟩
      | _ => cases hkind

theorem exists_statements {xs : List Link} (h : ∀ x ∈ xs, ∃ s : Statement, s.In f x) :
    ∃ ss : Statements, ss.In f xs := by
  induction xs with
  | nil => exact ⟨.nil, rfl⟩
  | cons x xs ih =>
    obtain ⟨first, hfirst⟩ := h x List.mem_cons_self
    obtain ⟨rest, hrest⟩ := ih fun y hy => h y (List.mem_cons_of_mem x hy)
    exact ⟨.cons first rest, x, xs, rfl, hfirst, hrest⟩

/-- A handler stands under a link. -/
structure IsClause (f : Forest) (x : Link) (c : Contents.CatchClause) (parameter : Expression)
    (guard : Option Expression) (body : Statement) : Prop where
  contents : f.contents? x = some (.catchClause c)
  parameter : parameter.In f c.varName
  guard : guardIn f c.guard guard
  body : body.In f c.body

theorem exists_handlers {xs : List Link} {last : Link}
    (h : ∀ x ∈ xs, ∃ c parameter guard body, IsClause f x c parameter guard body)
    (hlast : last = none ∨ ∃ s : Statement, s.In f last) : ∃ hs : Handlers, hs.In f xs last := by
  induction xs with
  | nil =>
    rcases hlast with rfl | ⟨body, hbody⟩
    · exact ⟨.done, rfl, rfl⟩
    · exact ⟨.final body, rfl, hbody⟩
  | cons x xs ih =>
    obtain ⟨c, parameter, guard, body, hx⟩ := h x List.mem_cons_self
    obtain ⟨rest, hrest⟩ := ih fun y hy => h y (List.mem_cons_of_mem x hy)
    exact ⟨.handler parameter guard body rest, x, xs, c, rfl, hx.contents, hx.parameter, hx.guard,
      hx.body, hrest⟩

/-- What stands under a link as a statement, or as a handler. -/
structure States (f : Forest) (x : Link) : Prop where
  statement : ∀ k, f.kind? x = some k → k.isStatement → ∃ s : Statement, s.In f x
  clause : f.kind? x = some .catchClause →
    ∃ c parameter guard body, IsClause f x c parameter guard body

/-- What stands in a required slot for statements. -/
theorem exists_statement {c : Contents} (own : c.isProper f.kind?) (slot : ChildSlot) {a : Link}
    (ha : c.child? slot = some a) (required : slot.isRequired)
    (fits : slot.fits = Kind.isStatement) (h : States f a) : ∃ s : Statement, s.In f a := by
  obtain ⟨k, hk, statement⟩ := Contents.exists_of_required own ha required
  exact h.statement k hk (fits ▸ statement)

/-- What stands in a slot for statements that may be empty. -/
theorem exists_statement_or {c : Contents} (own : c.isProper f.kind?) (slot : ChildSlot) {a : Link}
    (ha : c.child? slot = some a) (fits : slot.fits = Kind.isStatement) (h : States f a) :
    a = none ∨ ∃ s : Statement, s.In f a := by
  refine (Contents.exists_of_optional own ha).imp id ?_
  rintro ⟨k, hk, statement⟩
  exact h.statement k hk (fits ▸ statement)

theorem exists_guard {c : Contents.CatchClause} (own : (Contents.catchClause c).isProper f.kind?)
    (h : Expresses f c.guard) : ∃ guard, guardIn f c.guard guard := by
  have child : (Contents.catchClause c).child? .guard = some c.guard := rfl
  rcases Contents.exists_of_optional own child with absent | ⟨k, hk, expression⟩
  · exact ⟨none, absent⟩
  · obtain ⟨e, he⟩ := h.expression k hk expression
    exact ⟨some e, he⟩

section

variable {x : Link} {c : Contents} (hf : f.Linked) (hc : f.contents? x = some c)
  (own : c.isProper f.kind?) (expressed : ∀ a ∈ c.links, Expresses f a)
  (stated : ∀ a ∈ c.links, States f a)
include hf hc own expressed stated

/-- What the contents of a statement say, if there are phrases below. -/
theorem exists_statement_of_contents (statement : c.kind.isStatement) :
    ∃ s : Statement, s.In f x := by
  have expressionIn (slot : ChildSlot) {a : Link} (ha : c.child? slot = some a)
      (required : slot.isRequired) (fits : slot.fits = Kind.isExpression) :
      ∃ e : Expression, e.In f a :=
    exists_expression own slot ha required fits (expressed a (Contents.mem_links_of_child? ha))
  have statementIn (slot : ChildSlot) {a : Link} (ha : c.child? slot = some a)
      (required : slot.isRequired) (fits : slot.fits = Kind.isStatement) :
      ∃ s : Statement, s.In f a :=
    exists_statement own slot ha required fits (stated a (Contents.mem_links_of_child? ha))
  have optionalIn (slot : ChildSlot) {a : Link} (ha : c.child? slot = some a)
      (fits : slot.fits = Kind.isStatement) : a = none ∨ ∃ s : Statement, s.In f a :=
    exists_statement_or own slot ha fits (stated a (Contents.mem_links_of_child? ha))
  cases c with
  | block c =>
    have legible := (Bool.and_eq_true_iff.mp own).1
    obtain ⟨ss, hss⟩ := exists_statements fun a ha => by
      obtain ⟨k, hk, fits⟩ := (Option.any_eq_true _ _).mp (List.all_eq_true.mp legible a ha)
      exact (stated a ha).statement k hk fits
    exact ⟨.block ss, c, hc, hss⟩
  | expressionStatement c =>
    obtain ⟨e, he⟩ := expressionIn .expression rfl rfl rfl
    exact ⟨.expression e, c, hc, he⟩
  | ifStatement c =>
    obtain ⟨test, htest⟩ := expressionIn .condition rfl rfl rfl
    obtain ⟨t, ht⟩ := statementIn .thenPart rfl rfl rfl
    rcases optionalIn .elsePart rfl rfl with absent | ⟨e, he⟩
    · exact ⟨.conditional test t, c, hc, htest, ht, absent⟩
    · exact ⟨.alternative test t e, c, hc, htest, ht, he⟩
  | tryStatement c =>
    obtain ⟨body, hbody⟩ := statementIn .tryBlock rfl rfl rfl
    have clauses : ∀ a ∈ c.catchClauses, ∃ c parameter guard body,
        IsClause f a c parameter guard body := fun a ha =>
      (stated a (by simp [Contents.links, ha])).clause
        (hf.kind?_of_entry hc .catchClauses rfl ha rfl)
    obtain ⟨hs, hhs⟩ := exists_handlers clauses (optionalIn .finallyBlock rfl rfl)
    exact ⟨.attempt body hs, c, hc, hbody, hhs⟩
  | forInLoop c =>
    obtain ⟨iterator, hiterator⟩ := expressionIn .iterator rfl rfl rfl
    obtain ⟨object, hobject⟩ := expressionIn .iteratedObject rfl rfl rfl
    obtain ⟨body, hbody⟩ := statementIn .body rfl rfl rfl
    exact ⟨.forIn c.isForEach iterator object body, c, hc, rfl, hiterator, hobject, hbody⟩
  | doLoop c =>
    obtain ⟨body, hbody⟩ := statementIn .body rfl rfl rfl
    obtain ⟨test, htest⟩ := expressionIn .condition rfl rfl rfl
    exact ⟨.doWhile body test, c, hc, hbody, htest⟩
  | whileLoop c =>
    obtain ⟨test, htest⟩ := expressionIn .condition rfl rfl rfl
    obtain ⟨body, hbody⟩ := statementIn .body rfl rfl rfl
    exact ⟨.whileDo test body, c, hc, htest, hbody⟩
  | _ => cases statement

omit hf in
/-- What the contents of a handler say, if there are phrases below. -/
theorem exists_clause_of_contents (clause : c.kind = .catchClause) :
    ∃ c parameter guard body, IsClause f x c parameter guard body := by
  cases c with
  | catchClause c =>
    obtain ⟨parameter, hparameter⟩ := exists_expression own .varName rfl rfl rfl
      (expressed _ (by simp [Contents.links]))
    obtain ⟨guard, hguard⟩ := exists_guard own (expressed _ (by simp [Contents.links]))
    obtain ⟨body, hbody⟩ := exists_statement own .handlerBody rfl rfl rfl
      (stated _ (by simp [Contents.links]))
    exact ⟨c, parameter, guard, body, hc, hparameter, hguard, hbody⟩
  | _ => cases clause

end

/-- **In a program a statement stands where one is demanded.** -/
theorem states (hf : f.Linked) (x : Link) (proper : f.Proper x) : States f x := by
  induction x using hf.links_induction with
  | step x ih =>
    have stated {c : Contents} (hc : f.contents? x = some c) : ∀ a ∈ c.links, States f a :=
      fun a ha => ih c hc a ha (hf.proper_of_link proper hc ha)
    have expressed {c : Contents} (hc : f.contents? x = some c) : ∀ a ∈ c.links, Expresses f a :=
      fun a ha => expresses hf a (hf.proper_of_link proper hc ha)
    constructor
    · intro k hk statement
      -- the empty statement is the one that has no contents
      by_cases empty : k = .emptyStatement
      · exact ⟨.empty, hk.trans (congrArg some empty)⟩
      obtain ⟨c, hc, rfl⟩ := hf.intact.exists_contents? hk
        (by cases k <;> cases statement <;> first | rfl | exact absurd rfl empty)
      exact exists_statement_of_contents hf hc (hf.isProper_of_proper proper hc) (expressed hc)
        (stated hc) statement
    · intro hk
      obtain ⟨c, hc, clause⟩ := hf.intact.exists_contents? hk rfl
      exact exists_clause_of_contents hc (hf.isProper_of_proper proper hc) (expressed hc)
        (stated hc) clause

end Grammar

end SyntaxForest
