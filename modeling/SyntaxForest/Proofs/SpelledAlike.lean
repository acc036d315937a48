import SyntaxForest.Proofs.Programs
import SyntaxForest.Proofs.Sameness

/-!
# Trees that spell one phrase

Two trees under which the same phrase stands are the same (`Expression.same_of_in`,
`Statement.same_of_in`).  The trees may stand in different forests and under different indices, and
what source code does not show may differ.
-/

namespace SyntaxForest

namespace Grammar

variable {f g : Forest} {x y : Link}

/-- A word determines the kind of the leaf that it stands under and the text in it. -/
theorem Word.same_of_in {w : Word} (h : wordIn f x w) (h' : wordIn g y w) : f.Same g x y := by
  cases w with
  | identifier cs valid =>
    obtain ⟨c, hc, rfl⟩ := h
    obtain ⟨d, hd, same⟩ := h'
    refine .of_contents hc hd rfl ?_ .nil
    rw [Contents.spelling?, Contents.spelling?, String.toList_injective same]
  | number cs valid =>
    obtain ⟨c, token, hc, htoken, rfl⟩ := h
    obtain ⟨d, token', hd, htoken', same⟩ := h'
    refine .of_contents hc hd rfl ?_ .nil
    rw [Contents.spelling?, Contents.spelling?, htoken, htoken', String.toList_injective same]
  | keyword k =>
    obtain ⟨c, hc, rfl⟩ := h
    obtain ⟨d, hd, same⟩ := h'
    refine .of_contents hc hd rfl ?_ .nil
    rw [Contents.spelling?, Contents.spelling?, same]

mutual

/-- **Trees that spell one expression are the same.** -/
theorem Expression.same_of_in (hf : f.Intact) (hg : g.Intact) : ∀ (e : Expression) {x y : Link},
    e.In f x → e.In g y → f.Same g x y
  | .word w, x, y, h, h' => Word.same_of_in h h'
  | .string quote value, x, y, h, h' => by
    obtain ⟨c, hc, hquote, rfl⟩ := h
    obtain ⟨d, hd, hquote', same⟩ := h'
    refine .of_contents hc hd rfl ?_ .nil
    rw [Contents.spelling?, Contents.spelling?, hquote, hquote', String.toList_injective same]
  | .array elements, x, y, h, h' => by
    obtain ⟨c, hc, helements⟩ := h
    obtain ⟨d, hd, helements'⟩ := h'
    exact .of_contents hc hd rfl rfl (elements.same_of_in hf hg helements helements')
  | .object elements, x, y, h, h' => by
    obtain ⟨c, hc, helements⟩ := h
    obtain ⟨d, hd, helements'⟩ := h'
    exact .of_contents hc hd rfl rfl (elements.same_of_in hf hg helements helements')

/-- Elements determine how many links there are and what stands under each, elisions included. -/
theorem Elements.same_of_in (hf : f.Intact) (hg : g.Intact) : ∀ (es : Elements)
    {xs ys : List Link}, es.In f xs → es.In g ys → List.Forall₂ (f.Same g) xs ys
  | .nil, xs, ys, h, h' => by
    obtain rfl : xs = [] := h
    obtain rfl : ys = [] := h'
    exact .nil
  | .elision rest, xs, ys, h, h' => by
    obtain ⟨x, more, rfl, hx, hmore⟩ := h
    obtain ⟨y, more', rfl, hy, hmore'⟩ := h'
    exact .cons (.of_bare hf hg hx hy rfl) (rest.same_of_in hf hg hmore hmore')
  | .element e rest, xs, ys, h, h' => by
    obtain ⟨x, more, rfl, hx, hmore⟩ := h
    obtain ⟨y, more', rfl, hy, hmore'⟩ := h'
    exact .cons (e.same_of_in hf hg hx hy) (rest.same_of_in hf hg hmore hmore')
  | .property key value rest, xs, ys, h, h' => by
    obtain ⟨x, more, c, rfl, hc, hkey, hvalue, hmore⟩ := h
    obtain ⟨y, more', d, rfl, hd, hkey', hvalue', hmore'⟩ := h'
    refine .cons (.of_contents hc hd rfl rfl ?_) (rest.same_of_in hf hg hmore hmore')
    exact .cons (key.same_of_in hf hg hkey hkey')
      (.cons (value.same_of_in hf hg hvalue hvalue') .nil)

end

/-- A guard is absent in both trees, or stands in both as one expression. -/
theorem same_of_guardIn (hf : f.Intact) (hg : g.Intact) {guard : Option Expression}
    (h : guardIn f x guard) (h' : guardIn g y guard) : f.Same g x y := by
  cases guard with
  | none =>
    obtain rfl : x = none := h
    obtain rfl : y = none := h'
    exact .absent
  | some e => exact e.same_of_in hf hg h h'

mutual

/-- **Trees that spell one statement are the same.** -/
theorem Statement.same_of_in (hf : f.Intact) (hg : g.Intact) : ∀ (s : Statement) {x y : Link},
    s.In f x → s.In g y → f.Same g x y
  | .block body, x, y, h, h' => by
    obtain ⟨c, hc, hbody⟩ := h
    obtain ⟨d, hd, hbody'⟩ := h'
    exact .of_contents hc hd rfl rfl (body.same_of_in hf hg hbody hbody')
  | .expression e, x, y, h, h' => by
    obtain ⟨c, hc, he⟩ := h
    obtain ⟨d, hd, he'⟩ := h'
    exact .of_contents hc hd rfl rfl (.cons (e.same_of_in hf hg he he') .nil)
  | .empty, x, y, h, h' => .of_bare hf hg h h' rfl
  | .conditional test t, x, y, h, h' => by
    obtain ⟨c, hc, htest, hthen, absent⟩ := h
    obtain ⟨d, hd, htest', hthen', absent'⟩ := h'
    have noElse : f.Same g c.elsePart d.elsePart := by
      rw [absent, absent']
      exact .absent
    exact .of_contents hc hd rfl rfl (.cons (test.same_of_in hf hg htest htest')
      (.cons (t.same_of_in hf hg hthen hthen') (.cons noElse .nil)))
  | .alternative test t e, x, y, h, h' => by
    obtain ⟨c, hc, htest, hthen, helse⟩ := h
    obtain ⟨d, hd, htest', hthen', helse'⟩ := h'
    exact .of_contents hc hd rfl rfl (.cons (test.same_of_in hf hg htest htest')
      (.cons (t.same_of_in hf hg hthen hthen') (.cons (e.same_of_in hf hg helse helse') .nil)))
  | .attempt body hs, x, y, h, h' => by
    obtain ⟨c, hc, hbody, hhs⟩ := h
    obtain ⟨d, hd, hbody', hhs'⟩ := h'
    exact .of_contents hc hd rfl rfl
      (.cons (body.same_of_in hf hg hbody hbody') (hs.same_of_in hf hg hhs hhs'))
  | .forIn isForEach iterator object body, x, y, h, h' => by
    obtain ⟨c, hc, each, hiterator, hobject, hbody⟩ := h
    obtain ⟨d, hd, each', hiterator', hobject', hbody'⟩ := h'
    refine .of_contents hc hd rfl ?_ ?_
    · rw [Contents.spelling?, Contents.spelling?, each, each']
    · exact .cons (iterator.same_of_in hf hg hiterator hiterator')
        (.cons (object.same_of_in hf hg hobject hobject')
          (.cons (body.same_of_in hf hg hbody hbody') .nil))
  | .doWhile body test, x, y, h, h' => by
    obtain ⟨c, hc, hbody, htest⟩ := h
    obtain ⟨d, hd, hbody', htest'⟩ := h'
    exact .of_contents hc hd rfl rfl (.cons (body.same_of_in hf hg hbody hbody')
      (.cons (test.same_of_in hf hg htest htest') .nil))
  | .whileDo test body, x, y, h, h' => by
    obtain ⟨c, hc, htest, hbody⟩ := h
    obtain ⟨d, hd, htest', hbody'⟩ := h'
    exact .of_contents hc hd rfl rfl (.cons (test.same_of_in hf hg htest htest')
      (.cons (body.same_of_in hf hg hbody hbody') .nil))

/-- The statements of a block are the same one by one. -/
theorem Statements.same_of_in (hf : f.Intact) (hg : g.Intact) : ∀ (ss : Statements)
    {xs ys : List Link}, ss.In f xs → ss.In g ys → List.Forall₂ (f.Same g) xs ys
  | .nil, xs, ys, h, h' => by
    obtain rfl : xs = [] := h
    obtain rfl : ys = [] := h'
    exact .nil
  | .cons first rest, xs, ys, h, h' => by
    obtain ⟨x, more, rfl, hx, hmore⟩ := h
    obtain ⟨y, more', rfl, hy, hmore'⟩ := h'
    exact .cons (first.same_of_in hf hg hx hy) (rest.same_of_in hf hg hmore hmore')

/-- The handlers are the same one by one, and so is what is done in every case, which stands behind
them among the links of a `try`. -/
theorem Handlers.same_of_in (hf : f.Intact) (hg : g.Intact) : ∀ (hs : Handlers)
    {xs ys : List Link} {last last' : Link}, hs.In f xs last → hs.In g ys last' →
      List.Forall₂ (f.Same g) (xs ++ [last]) (ys ++ [last'])
  | .done, xs, ys, last, last', h, h' => by
    obtain ⟨rfl, rfl⟩ := h
    obtain ⟨rfl, rfl⟩ := h'
    exact .cons .absent .nil
  | .final body, xs, ys, last, last', h, h' => by
    obtain ⟨rfl, hbody⟩ := h
    obtain ⟨rfl, hbody'⟩ := h'
    exact .cons (body.same_of_in hf hg hbody hbody') .nil
  | .handler parameter guard body hs, xs, ys, last, last', h, h' => by
    obtain ⟨x, more, c, rfl, hc, hparameter, hguard, hbody, hmore⟩ := h
    obtain ⟨y, more', d, rfl, hd, hparameter', hguard', hbody', hmore'⟩ := h'
    refine .cons (.of_contents hc hd rfl rfl ?_) (hs.same_of_in hf hg hmore hmore')
    exact .cons (parameter.same_of_in hf hg hparameter hparameter')
      (.cons (same_of_guardIn hf hg hguard hguard')
        (.cons (body.same_of_in hf hg hbody hbody') .nil))

end

end Grammar

end SyntaxForest
