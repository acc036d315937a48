import SyntaxForest.Proofs.Completeness
import SyntaxForest.Proofs.Placement
import SyntaxForest.Proofs.Sameness

/-!
# What a record keeps of a node

A record keeps the kind of its node, its children and its values, but for later handlers of a `try`
and for whether a loop over an object is one over its values.

* `recordTypeOf_cases` — the type of a record tells the kind, but for literals;
* `Spelling.Literal.unique` — the value and the text of a literal tell the literal, if the tokens of
  numbers start with digits (the token `null` would be recorded as the keyword is);
* `Contents.forall₂_links` — of two nodes of one kind, the links that are kept correspond if the
  entries of their forms do.  A handler is recorded in a slot and stands in a list, which has no
  gaps; this is where it matters.
-/

namespace SyntaxForest

/-! ## What a record keeps -/

/-- What a record keeps of what source code shows of a node: all but whether a loop over an object
is one over its values. -/
def Spelling.recorded? : Spelling → Option Spelling
  | .loop _ => none
  | s => some s

/-- The kind of the nodes that are spelled so. -/
def Spelling.kind : Spelling → Kind
  | .name _ => .name
  | .number _ => .numberLiteral
  | .string .. => .stringLiteral
  | .keyword _ => .keywordLiteral
  | .loop _ => .forInLoop

/-- The contents with the first handler of a `try` alone. -/
def Contents.withFirstHandler : Contents → Contents
  | .tryStatement c => .tryStatement { c with catchClauses := c.catchClauses.take 1 }
  | c => c

/-- Whether a token starts with an ASCII digit. -/
def startsWithDigit (token : String) : Bool := token.toList.head?.any Decimal.isDigit

/-! ## Types -/

/-- The type that the record of a node names.  `this` is an expression of its own type. -/
def recordTypeOf (k : Kind) (s : Option Spelling) : String :=
  if s = some (.keyword .this) then "ThisExpression" else k.recordType

/-- The kinds that are recorded under one type. -/
def Kind.isLiteral : Kind → Bool
  | .numberLiteral | .stringLiteral | .keywordLiteral => true
  | _ => false

theorem Kind.eq_or_isLiteral {k l : Kind} (h : k.recordType = l.recordType) :
    k = l ∨ k.isLiteral ∧ l.isLiteral := by
  have all : ∀ k ∈ Kind.all, ∀ l ∈ Kind.all, k.recordType = l.recordType →
      k = l ∨ k.isLiteral ∧ l.isLiteral := by
    decide +kernel
  exact all k k.mem_all l l.mem_all h

/-- **What the type of a record tells of its node**: its kind, but for literals. -/
theorem recordTypeOf_cases {k l : Kind} {s t : Option Spelling}
    (h : recordTypeOf k s = recordTypeOf l t) :
    (s = some (.keyword .this) ∧ t = some (.keyword .this)) ∨
      (s ≠ some (.keyword .this) ∧ t ≠ some (.keyword .this) ∧
        (k = l ∨ k.isLiteral ∧ l.isLiteral)) := by
  have own (k : Kind) : k.recordType ≠ "ThisExpression" := by cases k <;> decide
  unfold recordTypeOf at h
  split at h <;> split at h
  · next hs ht => exact .inl ⟨hs, ht⟩
  · next => exact absurd h.symm (own l)
  · next => exact absurd h (own k)
  · next hs ht => exact .inr ⟨hs, ht, Kind.eq_or_isLiteral h⟩

/-! ## Literals -/

/-- What is recorded as a literal with a value and a text. -/
inductive Spelling.Literal : Spelling → Json → String → Prop where
  | number (token : String) : Literal (.number (some token)) (Interchange.numberValue token) token
  | string (value : String) (quote : Char) :
    Literal (.string value quote) (.string value) (quoted quote value)
  /-- Keywords are told from each other by their texts. -/
  | keyword {k : Keyword} {v : Json} (other : ∀ value, v ≠ .string value) :
    Literal (.keyword k) v k.text

/-- The value of a number is no string. -/
theorem Interchange.numberValue_ne_string (token value : String) :
    numberValue token ≠ .string value := by
  unfold numberValue Json.ofBinary64
  split
  · simp
  · split
    · split <;> simp
    · simp

/-- Only a string is equal to a string. -/
theorem Json.eq_string_iff_of_same {v w : Json} (same : v.same w) (value : String) :
    v = .string value ↔ w = .string value := by
  cases v <;> cases w <;> simp_all [Json.same]

theorem Keyword.text_injective : Function.Injective Keyword.text := by
  intro k l h
  cases k <;> cases l <;> first | rfl | exact absurd h (by decide)

theorem Keyword.startsWithDigit_text (k : Keyword) : ¬ startsWithDigit k.text := by
  cases k <;> decide

/-- **A literal is recovered from its value and its text.**  The value tells strings from the other
literals, and the first character of the text tells numbers from keywords and the quotes of strings
from each other. -/
theorem Spelling.Literal.unique {s t : Spelling} {v w : Json} {text text' : String}
    (h : s.Literal v text) (h' : t.Literal w text') (same : v.same w) (texts : text = text')
    (digits : ∀ token, s = .number (some token) → startsWithDigit token)
    (digits' : ∀ token, t = .number (some token) → startsWithDigit token) : s = t := by
  have strings := Json.eq_string_iff_of_same same
  cases h with
  | number =>
    cases h' with
    | number => rw [texts]
    | string value quote =>
      exact absurd ((strings value).mpr rfl) (Interchange.numberValue_ne_string text value)
    | @keyword k => exact absurd (texts ▸ digits text rfl) k.startsWithDigit_text
  | string value quote =>
    have equal := (strings value).mp rfl
    cases h' with
    | number => exact absurd equal (Interchange.numberValue_ne_string text' value)
    | string value' quote' =>
      obtain rfl := Json.string.inj equal
      have quotes : quote = quote' := by
        have texts := congrArg String.toList texts
        simp only [quoted, String.toList_ofList, List.cons.injEq] at texts
        exact texts.1
      rw [quotes]
    | keyword other => exact absurd equal (other value)
  | @keyword k _ other =>
    cases h' with
    | number => exact absurd (texts ▸ digits' text' rfl) k.startsWithDigit_text
    | string value quote => exact absurd ((strings value).mpr rfl) (other value)
    | @keyword l => rw [Keyword.text_injective texts]

/-! ## Contents -/

namespace Contents

open Interchange (form keywordFields)

variable {c d : Contents}

theorem kind_of_spelling? {s : Spelling} (h : c.spelling? = some s) : c.kind = s.kind := by
  cases c <;> cases h <;> rfl

@[simp] theorem kind_withFirstHandler (c : Contents) : c.withFirstHandler.kind = c.kind := by
  cases c <;> rfl

theorem mem_embedded_of_link {z : NodeIndex} (h : some z ∈ c.withFirstHandler.links) :
    some z ∈ Interchange.embedded c := by
  cases c with
  | tryStatement c =>
    obtain ⟨tryBlock, catchClauses, finallyBlock, finallyPosition⟩ := c
    cases catchClauses <;> simp_all [withFirstHandler, links, Interchange.embedded]
  | _ => exact h

/-- A literal has its value and its text in its form. -/
theorem exists_literal (complete : c.Complete) (literal : c.kind.isLiteral)
    (other : c.spelling? ≠ some (.keyword .this)) : ∃ s v text, c.spelling? = some s ∧
      s.Literal v text ∧ ("value", .value v) ∈ form c ∧
        ("raw", .value (.string text)) ∈ form c := by
  cases c with
  | numberLiteral c =>
    obtain ⟨token, value⟩ := c
    cases token with
    | none => exact absurd rfl complete.token
    | some token => exact ⟨_, _, _, rfl, .number token, by simp [form]⟩
  | stringLiteral c => exact ⟨_, _, _, rfl, .string c.value c.quote, by simp [form]⟩
  | keywordLiteral c =>
    obtain ⟨keyword⟩ := c
    cases keyword with
    | true => exact ⟨_, .bool true, _, rfl, .keyword (by simp), by simp [form, keywordFields]⟩
    | false => exact ⟨_, .bool false, _, rfl, .keyword (by simp), by simp [form, keywordFields]⟩
    | null => exact ⟨_, .null, _, rfl, .keyword (by simp), by simp [form, keywordFields]⟩
    | this => exact absurd rfl other
  | _ => cases literal

/-- Nodes of one kind that are no literals are spelled alike if identifiers are, as far as records
go. -/
theorem recordedSpelling_eq (kind : c.kind = d.kind) (other : c.kind.isLiteral = false)
    (names : ∀ {v w}, ("name", .value v) ∈ form c → ("name", .value w) ∈ form d → v.same w) :
    c.spelling?.bind Spelling.recorded? = d.spelling?.bind Spelling.recorded? := by
  cases c <;> cases d <;> cases kind
  case name.name.refl c d =>
    have same := names (v := .string c.identifier) (w := .string d.identifier)
      (by simp [form]) (by simp [form])
    rw [spelling?, spelling?, beq_iff_eq.mp same]
  all_goals first | rfl | cases other

/-- Of two lists without gaps the first entries correspond if either list has one only if the other
has. -/
theorem forall₂_take_one {R : NodeIndex → NodeIndex → Prop} {xs ys : List Link} (hx : none ∉ xs)
    (hy : none ∉ ys) (first : Option.Rel R xs.head?.join ys.head?.join) :
    List.Forall₂ (Option.Rel R) (xs.take 1) (ys.take 1) := by
  cases xs with
  | nil =>
    cases ys with
    | nil => exact .nil
    | cons y ys =>
      cases y with
      | none => exact absurd List.mem_cons_self hy
      | some y => cases first
  | cons x xs =>
    cases x with
    | none => exact absurd List.mem_cons_self hx
    | some x =>
      cases ys with
      | nil => cases first
      | cons y ys => exact .cons first .nil

theorem rel_head?_of_take_one {R : NodeIndex → NodeIndex → Prop} {xs ys : List Link}
    (h : List.Forall₂ (Option.Rel R) (xs.take 1) (ys.take 1)) :
    Option.Rel R xs.head?.join ys.head?.join := by
  cases xs with
  | nil =>
    cases ys with
    | nil => exact .none
    | cons => cases h
  | cons x xs =>
    cases ys with
    | nil => cases h
    | cons y ys =>
      cases h with
      | cons first _ => exact first

/-- **Nodes of one kind have corresponding links if the entries for children correspond.** -/
theorem forall₂_links {R : NodeIndex → NodeIndex → Prop} (kind : c.kind = d.kind)
    (entries : ∀ slot items, c.list? slot = some items → none ∉ items)
    (entries' : ∀ slot items, d.list? slot = some items → none ∉ items)
    (child : ∀ name {x y}, (name, .child x) ∈ form c ∧ (name, .child y) ∈ form d →
      Option.Rel R x y)
    (children : ∀ name {xs ys}, (name, .children xs) ∈ form c ∧ (name, .children ys) ∈ form d →
      List.Forall₂ (Option.Rel R) xs ys) :
    List.Forall₂ (Option.Rel R) c.withFirstHandler.links d.withFirstHandler.links := by
  cases c <;> cases d <;> cases kind
  case name | numberLiteral | stringLiteral | keywordLiteral => exact .nil
  case arrayLiteral => exact children "elements" (by simp [form, withFirstHandler, links])
  case objectLiteral => exact children "properties" (by simp [form, withFirstHandler, links])
  case block => exact children "body" (by simp [form, withFirstHandler, links])
  case objectProperty =>
    exact .cons (child "key" (by simp [form])) (.cons (child "value" (by simp [form])) .nil)
  case expressionStatement => exact .cons (child "expression" (by simp [form])) .nil
  case ifStatement =>
    exact .cons (child "test" (by simp [form])) (.cons (child "consequent" (by simp [form]))
      (.cons (child "alternate" (by simp [form])) .nil))
  case tryStatement =>
    have handlers := forall₂_take_one (entries .catchClauses _ rfl) (entries' .catchClauses _ rfl)
      (child "handler" (by simp [form]))
    refine .cons (child "block" (by simp [form])) (forall₂_concat_iff.mpr ⟨handlers, ?_⟩)
    exact child "finalizer" (by simp [form])
  case catchClause =>
    exact .cons (child "param" (by simp [form])) (.cons (child "guard" (by simp [form]))
      (.cons (child "body" (by simp [form])) .nil))
  case forInLoop =>
    exact .cons (child "left" (by simp [form])) (.cons (child "right" (by simp [form]))
      (.cons (child "body" (by simp [form])) .nil))
  case doLoop =>
    exact .cons (child "body" (by simp [form])) (.cons (child "test" (by simp [form])) .nil)
  case whileLoop =>
    exact .cons (child "test" (by simp [form])) (.cons (child "body" (by simp [form])) .nil)

end Contents

end SyntaxForest
