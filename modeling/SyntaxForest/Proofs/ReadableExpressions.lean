import SyntaxForest.Proofs.Grammar

/-!
# Reading expressions

Expressions can be read off a text in one way: if an expression with something behind it is written
as another expression with something behind it, then the expressions are the same and what is behind
them is the same (`Expression.readable`).  What is behind must not go on with a word.

The first character of an expression tells its sort, and after that the proof goes along the
grammar.  No expression starts with a comma, with a colon or with a closing bracket, so the ends of
elements are seen without looking into them.
-/

namespace SyntaxForest

namespace Grammar

/-! ## Expressions -/

/-- How the first character of an expression tells what it is; no expression starts with a blank or
with punctuation. -/
def sortOf (c : Char) : Option Kind :=
  if isWordCharacter c then some .name
  else if c = '\x27' ∨ c = '"' then some .stringLiteral
  else if c = '[' then some .arrayLiteral
  else if c = '\x7b' then some .objectLiteral
  else none

/-- The sort of an expression; words are all of one sort. -/
def Expression.sort : Expression → Kind
  | .word _ => .name
  | .string _ _ => .stringLiteral
  | .array _ => .arrayLiteral
  | .object _ => .objectLiteral

/-- An expression is written with at least one character, which tells its sort. -/
theorem Expression.exists_first (e : Expression) :
    ∃ first more, e.text = first :: more ∧ sortOf first = some e.sort := by
  cases e with
  | word w =>
    obtain ⟨first, more, written, inWord⟩ := w.exists_first
    exact ⟨first, more, written, by simp [sortOf, inWord, sort]⟩
  | string quote value => exact ⟨quote.char, _, rfl, by cases quote <;> rfl⟩
  | array elements => exact ⟨'[', _, rfl, rfl⟩
  | object elements => exact ⟨'\x7b', _, rfl, rfl⟩

/-- An expression does not start with a character that no expression starts with. -/
theorem Expression.text_append_ne (e : Expression) (rest more : List Char) {c : Char}
    (h : sortOf c = none) : e.text ++ rest ≠ c :: more := by
  obtain ⟨first, tail, written, known⟩ := e.exists_first
  rw [written, List.cons_append]
  intro same
  rw [(List.cons.inj same).1, h] at known
  cases known

/-- Expressions that are written alike are of one sort. -/
theorem Expression.sort_eq {e e' : Expression} {rest rest' : List Char}
    (same : e.text ++ rest = e'.text ++ rest') : e.sort = e'.sort := by
  obtain ⟨first, more, written, known⟩ := e.exists_first
  obtain ⟨first', more', written', known'⟩ := e'.exists_first
  rw [written, written', List.cons_append, List.cons_append] at same
  rw [(List.cons.inj same).1, known'] at known
  exact (Option.some.inj known).symm

/-- What is written as this expression, whatever follows, is this expression. -/
def Expression.Readable (e : Expression) : Prop :=
  ∀ ⦃e' : Expression⦄ ⦃rest rest' : List Char⦄, Broken rest → Broken rest' →
    e.text ++ rest = e'.text ++ rest' → e = e' ∧ rest = rest'

/-- What is written as these elements up to a bracket, whatever follows, are these elements. -/
def Elements.Readable (es : Elements) : Prop :=
  ∀ ⦃es' : Elements⦄ ⦃close : Char⦄ ⦃rest rest' : List Char⦄, close = ']' ∨ close = '\x7d' →
    es.text close ++ rest = es'.text close ++ rest' → es = es' ∧ rest = rest'

/-- What stands behind an element: the bracket, or a comma and more. -/
def Elements.after (es : Elements) (comma : List Char) (close : Char) : List Char :=
  if es.isNil then [close] else comma ++ es.text close

theorem Elements.text_element (e : Expression) (es : Elements) (close : Char) :
    (Elements.element e es).text close = e.text ++ es.after [',', ' '] close := rfl

theorem Elements.text_property (key value : Expression) (es : Elements) (close : Char) :
    (Elements.property key value es).text close =
      key.text ++ ':' :: ' ' :: (value.text ++ es.after [',', ' '] close) := rfl

theorem Elements.eq_nil_of_isNil {es : Elements} (h : es.isNil) : es = .nil := by
  cases es with
  | nil => rfl
  | elision | element | property => cases h

/-- Behind an element there is a bracket or a comma. -/
theorem Elements.exists_after (es : Elements) (close : Char) (rest : List Char) :
    ∃ c more, es.after [',', ' '] close ++ rest = c :: more ∧ (c = close ∨ c = ',') := by
  unfold after
  split
  · exact ⟨close, rest, rfl, .inl rfl⟩
  · exact ⟨',', _, rfl, .inr rfl⟩

section Elements

variable {close : Char} (hclose : close = ']' ∨ close = '\x7d')
include hclose

theorem sortOf_close : sortOf close = none := by rcases hclose with rfl | rfl <;> rfl

/-- An element ends where it ends. -/
theorem Elements.broken_after (es : Elements) (rest : List Char) :
    Broken (es.after [',', ' '] close ++ rest) := by
  obtain ⟨c, more, written, known⟩ := es.exists_after close rest
  rw [written]
  rcases known with rfl | rfl
  · rcases hclose with rfl | rfl <;> rfl
  · rfl

/-- A property is not an element with something behind it. -/
theorem Elements.after_ne_colon (es : Elements) (rest more : List Char) :
    es.after [',', ' '] close ++ rest ≠ ':' :: more := by
  obtain ⟨c, tail, written, known⟩ := es.exists_after close rest
  rw [written]
  intro same
  rcases known with rfl | rfl
  · rcases hclose with rfl | rfl <;> exact absurd (List.cons.inj same).1 (by decide)
  · exact absurd (List.cons.inj same).1 (by decide)

/-- What stands behind an element is read as it is. -/
theorem Elements.Readable.of_after {es es' : Elements} (h : es.Readable) {comma : List Char}
    (hcomma : comma = [' '] ∨ comma = [',', ' ']) {rest rest' : List Char}
    (same : es.after comma close ++ rest = es'.after comma close ++ rest') :
    es = es' ∧ rest = rest' := by
  have apart (more : List Char) (tail : List Char) : comma ++ more ≠ close :: tail := by
    rcases hcomma with rfl | rfl <;> rcases hclose with rfl | rfl <;>
      exact fun same => absurd (List.cons.inj same).1 (by decide)
  unfold after at same
  split at same
  · next none =>
    split at same
    · next none' =>
      rw [eq_nil_of_isNil none, eq_nil_of_isNil none']
      exact ⟨rfl, List.tail_eq_of_cons_eq same⟩
    · rw [List.append_assoc] at same
      exact absurd same.symm (apart _ _)
  · split at same
    · rw [List.append_assoc] at same
      exact absurd same (apart _ _)
    · rw [List.append_assoc, List.append_assoc, List.append_cancel_left_eq] at same
      exact h hclose same

end Elements

mutual

/-- **Expressions can be read off a text in one way.** -/
theorem Expression.readable : ∀ e : Expression, e.Readable
  | .word w => by
    intro e' rest rest' hrest hrest' same
    have sorts := Expression.sort_eq same
    cases e' with
    | word w' =>
      obtain ⟨rfl, rest_eq⟩ := Word.eq_of_append hrest hrest' same
      exact ⟨rfl, rest_eq⟩
    | string | array | object => cases sorts
  | .string quote value => by
    intro e' rest rest' hrest hrest' same
    have sorts := Expression.sort_eq same
    cases e' with
    | string quote' value' =>
      obtain ⟨rfl, rfl, rest_eq⟩ := Quote.eq_of_append same
      exact ⟨rfl, rest_eq⟩
    | word | array | object => cases sorts
  | .array es => by
    intro e' rest rest' hrest hrest' same
    have sorts := Expression.sort_eq same
    cases e' with
    | array es' =>
      obtain ⟨rfl, rest_eq⟩ := es.readable (.inl rfl) (List.tail_eq_of_cons_eq same)
      exact ⟨rfl, rest_eq⟩
    | word | string | object => cases sorts
  | .object es => by
    intro e' rest rest' hrest hrest' same
    have sorts := Expression.sort_eq same
    cases e' with
    | object es' =>
      obtain ⟨rfl, rest_eq⟩ := es.readable (.inr rfl) (List.tail_eq_of_cons_eq same)
      exact ⟨rfl, rest_eq⟩
    | word | string | array => cases sorts

/-- **The elements of a literal can be read off a text in one way**, with the bracket that closes
it. -/
theorem Elements.readable : ∀ es : Elements, es.Readable
  | .nil => by
    intro es' close rest rest' hclose same
    have closed := sortOf_close hclose
    cases es' with
    | nil => exact ⟨rfl, List.tail_eq_of_cons_eq same⟩
    | elision es' => rcases hclose with rfl | rfl <;> cases (List.cons.inj same).1
    | element e' es' =>
      rw [Elements.text_element, List.append_assoc] at same
      exact absurd same.symm (e'.text_append_ne _ _ closed)
    | property key' value' es' =>
      rw [Elements.text_property, List.append_assoc] at same
      exact absurd same.symm (key'.text_append_ne _ _ closed)
  | .elision es => by
    intro es' close rest rest' hclose same
    cases es' with
    | nil => rcases hclose with rfl | rfl <;> cases (List.cons.inj same).1
    | elision es' =>
      obtain ⟨rfl, rest_eq⟩ :=
        es.readable.of_after hclose (.inl rfl) (List.tail_eq_of_cons_eq same)
      exact ⟨rfl, rest_eq⟩
    | element e' es' =>
      rw [Elements.text_element, List.append_assoc] at same
      exact absurd same.symm (e'.text_append_ne _ _ rfl)
    | property key' value' es' =>
      rw [Elements.text_property, List.append_assoc] at same
      exact absurd same.symm (key'.text_append_ne _ _ rfl)
  | .element e es => by
    intro es' close rest rest' hclose same
    rw [Elements.text_element, List.append_assoc] at same
    cases es' with
    | nil => exact absurd same (e.text_append_ne _ _ (sortOf_close hclose))
    | elision es' => exact absurd same (e.text_append_ne _ _ rfl)
    | element e' es' =>
      rw [Elements.text_element, List.append_assoc] at same
      obtain ⟨rfl, behind⟩ :=
        e.readable (es.broken_after hclose rest) (es'.broken_after hclose rest') same
      obtain ⟨rfl, rest_eq⟩ := es.readable.of_after hclose (.inr rfl) behind
      exact ⟨rfl, rest_eq⟩
    | property key' value' es' =>
      -- the key would be the element, and no colon stands behind an element
      rw [Elements.text_property, List.append_assoc] at same
      obtain ⟨-, behind⟩ :=
        e.readable (es.broken_after hclose rest) (broken_cons rfl _) same
      exact absurd behind (es.after_ne_colon hclose rest _)
  | .property key value es => by
    intro es' close rest rest' hclose same
    rw [Elements.text_property, List.append_assoc] at same
    cases es' with
    | nil => exact absurd same (key.text_append_ne _ _ (sortOf_close hclose))
    | elision es' => exact absurd same (key.text_append_ne _ _ rfl)
    | element e' es' =>
      rw [Elements.text_element, List.append_assoc] at same
      obtain ⟨-, behind⟩ :=
        key.readable (broken_cons rfl _) (es'.broken_after hclose rest') same
      exact absurd behind.symm (es'.after_ne_colon hclose rest' _)
    | property key' value' es' =>
      simp only [Elements.text_property, List.append_assoc, List.cons_append] at same
      obtain ⟨rfl, colon⟩ := key.readable (broken_cons rfl _) (broken_cons rfl _) same
      simp only [List.cons.injEq, true_and] at colon
      obtain ⟨rfl, behind⟩ :=
        value.readable (es.broken_after hclose rest) (es'.broken_after hclose rest') colon
      obtain ⟨rfl, rest_eq⟩ := es.readable.of_after hclose (.inr rfl) behind
      exact ⟨rfl, rest_eq⟩

end

/-- An expression is read up to a mark that is no part of a word. -/
theorem Expression.eq_of_mark {e e' : Expression} {mark rest rest' : List Char}
    (hmark : mark.head?.any (!isNumberCharacter ·))
    (same : e.text ++ (mark ++ rest) = e'.text ++ (mark ++ rest')) : e = e' ∧ rest = rest' := by
  have broken (rest : List Char) : Broken (mark ++ rest) := by
    cases mark with
    | nil => cases hmark
    | cons c mark => exact hmark
  obtain ⟨rfl, behind⟩ := e.readable (broken rest) (broken rest') same
  exact ⟨rfl, List.append_cancel_left behind⟩

end Grammar

end SyntaxForest
