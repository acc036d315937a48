import SyntaxForest.Proofs.NodeTexts
import SyntaxForest.Proofs.ReadableStatements

/-!
# Printing spells out expressions

What is printed for an expression is what the grammar writes for it (`Expression.prints`).

The usual options indent a level by four blanks and end a line by a line feed, which is what the
grammar writes (`Printer.toList_pad`).  Elements are joined with the brackets behind them, because
an elision at the end shows by a comma in front of the bracket (`joined_cons`).
-/

namespace SyntaxForest

namespace Printer

theorem toList_pad (depth : Nat) :
    (PrinterOptions.indent {} depth).toList = Grammar.pad depth := by
  rw [toList_indent]
  induction depth with
  | zero => rfl
  | succ depth ih =>
    rw [List.replicate_succ, List.flatten_cons, ih, Grammar.pad, Grammar.pad, Nat.mul_add,
      Nat.add_comm, List.replicate_add]
    rfl

theorem toList_newlineText : (PrinterOptions.newlineText {}).toList = ['\n'] := rfl

end Printer

namespace Grammar

open Printer

variable {f : Forest} {texts : PrintJob → Except TreeError String}

/-! ## Expressions -/

/-- A word is printed as it is, behind the indentation. -/
theorem word_prints (htexts : (assembly f {}).Recursive texts) {w : Word} {x : Link}
    (h : wordIn f x w) (depth : Nat) : Prints texts x depth (pad depth ++ w.chars) := by
  cases w with
  | identifier cs valid =>
    obtain ⟨c, hc, rfl⟩ := h
    exact prints_of_gives htexts hc (fun _ _ => .pure _)
      (by rw [String.toList_append, toList_pad]; rfl)
  | number cs valid =>
    obtain ⟨⟨_, value⟩, token, hc, htoken, rfl⟩ := h
    cases htoken
    exact prints_of_gives htexts hc (fun _ _ => .pure _)
      (by rw [String.toList_append, toList_pad]; rfl)
  | keyword k =>
    obtain ⟨c, hc, rfl⟩ := h
    exact prints_of_gives htexts hc (fun _ _ => .pure _)
      (by rw [String.toList_append, toList_pad]; rfl)

theorem pad_zero : pad 0 = [] := rfl

/-- An element in front of others. -/
theorem joined_cons {es : Elements} {x : Link} {more : List Link} {part : String}
    {parts : List String} (hes : es.In f more) (printed : PrintsAll texts 0 more parts)
    {close : Char} (written : (joined f more parts).toList ++ [close] = es.text close) :
    (joined f (x :: more) (part :: parts)).toList ++ [close] = part.toList ++
      if es.isNil then (if f.kind? x = some .emptyExpression then [','] else []) ++ [close]
      else ',' :: ' ' :: es.text close := by
  have several {y : Link} {more' : List Link} (hmore : more = y :: more') :
      (joined f (x :: more) (part :: parts)).toList ++ [close] =
        part.toList ++ ',' :: ' ' :: es.text close := by
    subst hmore
    cases printed with
    | cons first rest =>
      -- what the list ends with does not depend on its first element
      have last : endsWithElision f (x :: y :: more') = endsWithElision f (y :: more') := by
        rw [endsWithElision, List.getLast?_cons_cons, endsWithElision]
      simp [← written, joined, last, String.toList_intercalate, List.intercalate]
  cases es with
  | nil =>
    obtain rfl : more = [] := hes
    cases printed with
    | nil =>
      by_cases elision : f.kind? x = some .emptyExpression <;>
        simp [joined, endsWithElision, elision, Elements.isNil]
  | elision rest =>
    obtain ⟨y, more', hmore, -⟩ := hes
    exact several hmore
  | element e rest =>
    obtain ⟨y, more', hmore, -⟩ := hes
    exact several hmore
  | property key value rest =>
    obtain ⟨y, more', c, hmore, -⟩ := hes
    exact several hmore

/-- No expression is an elision. -/
theorem Expression.kind?_ne {e : Expression} {x : Link} (h : e.In f x) :
    f.kind? x ≠ some .emptyExpression := by
  have other {c : Contents} (hc : f.contents? x = some c) (hkind : c.kind ≠ .emptyExpression) :
      f.kind? x ≠ some .emptyExpression := by
    rw [Forest.kind?_of_contents? hc]
    exact fun same => hkind (Option.some.inj same)
  cases e with
  | word w =>
    cases w with
    | identifier =>
      obtain ⟨c, hc, -⟩ := h
      exact other hc nofun
    | number =>
      obtain ⟨c, token, hc, -⟩ := h
      exact other hc nofun
    | keyword =>
      obtain ⟨c, hc, -⟩ := h
      exact other hc nofun
  | string | array | object =>
    obtain ⟨c, hc, -⟩ := h
    exact other hc nofun

mutual

/-- **What is printed for an expression is what the grammar writes.** -/
theorem Expression.prints (htexts : (assembly f {}).Recursive texts) (hf : f.Linked) :
    ∀ (e : Expression) {x : Link}, e.In f x → ∀ depth, Prints texts x depth (pad depth ++ e.text)
  | .word w, x, h, depth => word_prints htexts h depth
  | .string quote value, x, h, depth => by
    obtain ⟨c, hc, hquote, rfl⟩ := h
    refine prints_of_gives htexts hc (fun _ _ => .pure _) ?_
    rw [String.toList_append, toList_pad, hquote, quoted, String.toList_ofList]
    rfl
  | .array elements, x, h, depth => by
    obtain ⟨c, hc, helements⟩ := h
    obtain ⟨parts, printed, written⟩ := elements.prints htexts hf helements
    refine prints_array htexts hc printed ?_
    simp [toList_pad, Expression.text, ← written]
  | .object elements, x, h, depth => by
    obtain ⟨c, hc, helements⟩ := h
    obtain ⟨parts, printed, written⟩ := elements.prints htexts hf helements
    refine prints_object htexts hc printed ?_
    simp [toList_pad, Expression.text, ← written]

/-- The texts of elements, joined, are what the grammar writes between the brackets. -/
theorem Elements.prints (htexts : (assembly f {}).Recursive texts) (hf : f.Linked) :
    ∀ (es : Elements) {xs : List Link}, es.In f xs → ∃ parts, PrintsAll texts 0 xs parts ∧
      ∀ close, (joined f xs parts).toList ++ [close] = es.text close
  | .nil, xs, h => by
    obtain rfl : xs = [] := h
    exact ⟨[], .nil, fun close => rfl⟩
  | .elision rest, xs, h => by
    obtain ⟨x, more, rfl, hx, hrest⟩ := h
    obtain ⟨parts, printed, written⟩ := rest.prints htexts hf hrest
    have own : Prints texts x 0 [] := prints_of_bare htexts hf hx rfl rfl rfl
    refine ⟨_ :: parts, .cons own printed, fun close => ?_⟩
    rw [joined_cons hrest printed (written close), if_pos hx]
    rw [Elements.text]
    split <;> simp
  | .element e rest, xs, h => by
    obtain ⟨x, more, rfl, hx, hrest⟩ := h
    obtain ⟨parts, printed, written⟩ := rest.prints htexts hf hrest
    refine ⟨_ :: parts, .cons (e.prints htexts hf hx 0) printed, fun close => ?_⟩
    rw [joined_cons hrest printed (written close), if_neg (Expression.kind?_ne hx)]
    rw [Elements.text]
    simp [pad]
  | .property key value rest, xs, h => by
    obtain ⟨x, more, c, rfl, hc, hkey, hvalue, hrest⟩ := h
    obtain ⟨parts, printed, written⟩ := rest.prints htexts hf hrest
    have own : Prints texts x 0 (key.text ++ ':' :: ' ' :: value.text) := by
      refine prints_property htexts hc (key.prints htexts hf hkey 0)
        (value.prints htexts hf hvalue 0) ?_
      simp [pad_zero]
    refine ⟨_ :: parts, .cons own printed, fun close => ?_⟩
    have other : f.kind? x ≠ some .emptyExpression := by
      rw [Forest.kind?_of_contents? hc]
      nofun
    rw [joined_cons hrest printed (written close), if_neg other]
    rw [Elements.text]
    simp

end

end Grammar

end SyntaxForest
