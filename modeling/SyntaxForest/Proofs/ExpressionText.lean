import SyntaxForest.Proofs.SameTexts
import SyntaxForest.Proofs.SourceText

/-!
# Source text determines the expression

An expression is a tree of names, numbers, strings, keywords, arrays and objects
(`Forest.IsExpression`).  Unlike in a program, the token of a number may have letters, points and
signs in it.  Two expressions are printed alike exactly if they are the same tree
(`Reached.toSource_eq_iff_same`).

That one text stands for one tree is unique reading of the grammar (`Phrase.text_injective`), since
an expression spells a phrase (`exists_expression_of_isExpression`).  That one tree has one text
holds of all trees (`Forest.Same.print_eq`).  Elisions leave no characters of their own in the text,
only commas; `Forest.elisions` says where they stand, and trees that are the same have them in the
same places.
-/

namespace SyntaxForest

namespace Forest

variable (f : Forest)

mutual

/-- An expression stands under a link. -/
inductive IsExpression : Link → Prop where
  | name {x : Link} {c : Contents.Name} (hc : f.contents? x = some (.name c))
      (legible : isIdentifier c.identifier.toList) : IsExpression x
  | number {x : Link} {c : Contents.NumberLiteral} {token : String}
      (hc : f.contents? x = some (.numberLiteral c)) (htoken : c.token = some token)
      (legible : isNumber token.toList) : IsExpression x
  | string {x : Link} {c : Contents.StringLiteral} (hc : f.contents? x = some (.stringLiteral c))
      (quote : Quote) (hquote : c.quote = quote.char) : IsExpression x
  | keyword {x : Link} {c : Contents.KeywordLiteral}
      (hc : f.contents? x = some (.keywordLiteral c)) : IsExpression x
  | array {x : Link} {c : Contents.ArrayLiteral} (hc : f.contents? x = some (.arrayLiteral c))
      (elements : ∀ a ∈ c.elements, IsArrayElement a) : IsExpression x
  | object {x : Link} {c : Contents.ObjectLiteral} (hc : f.contents? x = some (.objectLiteral c))
      (elements : ∀ a ∈ c.elements, IsProperty a) : IsExpression x

/-- An element of an array stands under a link: an expression, or nothing. -/
inductive IsArrayElement : Link → Prop where
  | elision {x : Link} (h : f.kind? x = some .emptyExpression) : IsArrayElement x
  | expression {x : Link} (h : IsExpression x) : IsArrayElement x

/-- A property of an object stands under a link. -/
inductive IsProperty : Link → Prop where
  | pair {x : Link} {c : Contents.ObjectProperty} (hc : f.contents? x = some (.objectProperty c))
      (left : IsExpression c.left) (right : IsExpression c.right) : IsProperty x

end

/-- For each place between the brackets of a literal, whether the element is left out there. -/
def elisions (x : Link) : List Bool :=
  (f.list x .elements).map fun a => f.kind? a == some .emptyExpression

variable {f} {g : Forest} {x y : Link}

/-- Trees that are the same leave out the same elements. -/
theorem Same.elisions_eq (h : f.Same g x y) : f.elisions x = g.elisions y := by
  have elements : List.Forall₂ (f.Same g) (f.list x .elements) (g.list y .elements) := by
    cases h with
    | absent => exact .nil
    | node kind spelling parts =>
      rw [← occupants_list, ← occupants_list]
      exact parts _
  unfold elisions
  generalize f.list x .elements = as, g.list y .elements = bs at elements
  induction elements with
  | nil => rfl
  | cons first _ ih => rw [List.map_cons, List.map_cons, first.kind?_eq, ih]

/-- What stands under a link is a node. -/
theorem IsExpression.contains {x : Link} (h : f.IsExpression x) : f.contains x := by
  cases h with
  | name hc | number hc | string hc | keyword hc | array hc | object hc =>
    exact contains_of_contents? hc

end Forest

namespace Grammar

variable {f g : Forest}

/-! ## Expressions spell phrases -/

mutual

/-- An expression spells a phrase. -/
theorem exists_expression_of_isExpression : ∀ {x : Link}, f.IsExpression x →
    ∃ e : Expression, e.In f x
  | _, .name hc legible => ⟨.word (.identifier _ legible), _, hc, rfl⟩
  | _, .number hc htoken legible => ⟨.word (.number _ legible), _, _, hc, htoken, rfl⟩
  | _, .string hc quote hquote => ⟨.string quote _, _, hc, hquote, rfl⟩
  | _, .keyword hc => ⟨.word (.keyword _), _, hc, rfl⟩
  | _, .array hc elements => by
    obtain ⟨es, hes⟩ := exists_elements fun a ha => isElement_of_isArrayElement (elements a ha)
    exact ⟨.array es, _, hc, hes⟩
  | _, .object hc elements => by
    obtain ⟨es, hes⟩ := exists_elements fun a ha => isElement_of_isProperty (elements a ha)
    exact ⟨.object es, _, hc, hes⟩

theorem isElement_of_isArrayElement : ∀ {x : Link}, f.IsArrayElement x → IsElement f x
  | _, .elision h => .elision h
  | _, .expression h => by
    obtain ⟨e, he⟩ := exists_expression_of_isExpression h
    exact .element e he

theorem isElement_of_isProperty : ∀ {x : Link}, f.IsProperty x → IsElement f x
  | _, .pair hc left right => by
    obtain ⟨key, hkey⟩ := exists_expression_of_isExpression left
    obtain ⟨value, hvalue⟩ := exists_expression_of_isExpression right
    exact .property _ key value hc hkey hvalue

end

end Grammar

open Grammar

/-- **The source text of an expression determines the expression.**  Expressions that are not too
high are printed; they are printed alike exactly if they are the same tree, in one forest or in two,
and then the same elements are left out. -/
theorem Reached.toSource_eq_iff_same {f g : Forest} {loose loose' : List NodeIndex}
    {x y : NodeIndex} (hf : Reached f loose) (hg : Reached g loose')
    (hx : f.IsExpression (some x)) (hy : g.IsExpression (some y))
    (height : f.height (some x) ≤ Forest.maxHeight)
    (height' : g.height (some y) ≤ Forest.maxHeight) :
    ∃ text text', f.toSource (some x) = .ok text ∧ g.toSource (some y) = .ok text' ∧
      (text = text' ↔ f.Same g (some x) (some y)) ∧
      (text = text' → f.elisions (some x) = g.elisions (some y)) := by
  have intact := hf.tended.linked.intact
  have intact' := hg.tended.linked.intact
  obtain ⟨e, he⟩ := exists_expression_of_isExpression hx
  obtain ⟨e', he'⟩ := exists_expression_of_isExpression hy
  have source := hf.toSource_of_in (p := .expression e) he height
  have source' := hg.toSource_of_in (p := .expression e') he' height'
  have read (same : String.ofList e.text = String.ofList e'.text) :
      f.Same g (some x) (some y) := by
    have phrases : Phrase.expression e = Phrase.expression e' :=
      Phrase.text_injective trivial trivial (String.ofList_injective same)
    cases phrases
    exact e.same_of_in intact intact' he he'
  refine ⟨_, _, source, source', ⟨read, fun same => ?_⟩, fun same => (read same).elisions_eq⟩
  have printed := same.print_eq hf.tended.linked hg.tended.linked hx.contains {} 0
  exact Except.ok.inj (source.symm.trans (printed.symm.trans source'))

/-- An array that leaves out its second element and its last, and a clone of it. -/
def Command.sparse : List (Nat × Command) :=
  [(1, .construct (.node .arrayLiteral 0 0)), (2, .construct (.string 0 0 "it's" '\x27')),
    (3, .construct (.elision 0)), (4, .construct (.number 0 "1.5e+3")),
    (5, .construct (.node .objectLiteral 0 0)), (6, .construct (.node .objectProperty 0 0)),
    (7, .construct (.name 0 "k")), (8, .construct (.keyword 0 .this)),
    (9, .construct (.elision 0)),
    (0, .edit (.setChild .left (some 5) (some 6))),
    (0, .edit (.setChild .right (some 5) (some 7))),
    (0, .edit (.setList .elements (some 4) [some 5])),
    (0, .edit (.setList .elements (some 0) [some 1, some 2, some 3, some 4, some 8])),
    (0, .clone (some 0) none)]

/-- The array and its clone are expressions.  A clone numbers its nodes as they were made here. -/
theorem Command.isExpression_sparse {x : NodeIndex} (hx : x = 0 ∨ x = 9) :
    (perform sparse).1.IsExpression (some x) := by
  have elision (y : NodeIndex) (hy : y = x + 2 ∨ y = x + 8) :
      (perform sparse).1.IsArrayElement (some y) := by
    refine .elision ?_
    rcases hx with rfl | rfl <;> rcases hy with rfl | rfl <;> decide +kernel
  have string : (perform sparse).1.IsExpression (some (x + 1)) := by
    refine .string (c := ⟨"it's", '\x27'⟩) ?_ .single rfl
    rcases hx with rfl | rfl <;> decide +kernel
  have number : (perform sparse).1.IsExpression (some (x + 3)) := by
    refine .number (c := ⟨some "1.5e+3", .zero⟩) ?_ rfl (by decide +kernel)
    rcases hx with rfl | rfl <;> decide +kernel
  have key : (perform sparse).1.IsExpression (some (x + 6)) := by
    refine .name (c := ⟨"k"⟩) ?_ (by decide +kernel)
    rcases hx with rfl | rfl <;> decide +kernel
  have value : (perform sparse).1.IsExpression (some (x + 7)) := by
    refine .keyword (c := ⟨.this⟩) ?_
    rcases hx with rfl | rfl <;> decide +kernel
  have property : (perform sparse).1.IsProperty (some (x + 5)) := by
    refine .pair (c := ⟨some (x + 6), some (x + 7)⟩) ?_ key value
    rcases hx with rfl | rfl <;> decide +kernel
  have object : (perform sparse).1.IsExpression (some (x + 4)) := by
    refine .object (c := { elements := [some (x + 5)] }) ?_ (by simpa using property)
    rcases hx with rfl | rfl <;> decide +kernel
  refine .array (c := { elements := [some (x + 1), some (x + 2), some (x + 3), some (x + 4),
    some (x + 8)] }) ?_ ?_
  · rcases hx with rfl | rfl <;> decide +kernel
  · simpa using ⟨.expression string, elision _ (.inl rfl), .expression number,
      .expression object, elision _ (.inr rfl)⟩

/-- The array and its clone are printed, and alike exactly if they are the same. -/
theorem toSource_eq_iff_same_sparse : ∃ text text',
    (Command.perform Command.sparse).1.toSource (some 0) = .ok text ∧
      (Command.perform Command.sparse).1.toSource (some 9) = .ok text' ∧
      (text = text' ↔
        (Command.perform Command.sparse).1.Same (Command.perform Command.sparse).1
          (some 0) (some 9)) ∧
      (Command.perform Command.sparse).1.elisions (some 0) = [false, true, false, false, true] := by
  have reached := reached_perform Command.sparse
  obtain ⟨text, text', source, source', same, -⟩ := Reached.toSource_eq_iff_same reached reached
    (Command.isExpression_sparse (.inl rfl)) (Command.isExpression_sparse (.inr rfl))
    (by decide +kernel) (by decide +kernel)
  exact ⟨text, text', source, source', same, by decide +kernel⟩

end SyntaxForest
