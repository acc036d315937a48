import SyntaxForest.Proofs.Sameness
import SyntaxForest.Proofs.Shapes
import SyntaxForest.Proofs.Texts

/-!
# Trees that are the same have one text

What is printed for a tree is told by what `Forest.Same` compares: kinds, parts, texts of leaves and
flags of loops.  Trees that are the same are printed alike at every depth and with all options, in
one forest or in two, and if one of them has no text, the other has none for the same reason
(`Forest.Same.print_eq`).

A node looks at a child in three ways only: it asks for the text, it asks for the kind, and it asks
whether there is one (`Printer.Agree`).  So nodes of one kind and spelling whose parts agree have
one text (`Printer.ofContents_agree`).  What has to be seen is that corresponding children are
printed at the same depth.  A node chooses the depth by comparing indices of nodes, which are not the
same in the two trees; but no child stands in two slots, so what it finds out is the slot
(`Printer.childDepth_agree`).
-/

namespace SyntaxForest

/-- What is found for one list is found for another, if it is entry by entry. -/
theorem mapM_eq_of_forall₂ {α β γ : Type} {F : α → Except TreeError γ}
    {G : β → Except TreeError γ} {as : List α} {bs : List β}
    (h : List.Forall₂ (fun a b => G b = F a) as bs) : bs.mapM G = as.mapM F := by
  induction h with
  | nil => rfl
  | cons same _ ih => rw [List.mapM_cons, List.mapM_cons, same, ih]

namespace Printer

open Recipe

variable {f g : Forest} {look look' : Link → Except TreeError String}

/-! ## Parts that agree -/

/-- One text is found for two links, which are of one kind or both empty. -/
structure Agree (f g : Forest) (look look' : Link → Except TreeError String) (a b : Link) :
    Prop where
  found : look' b = look a
  kind : g.kind? b = f.kind? a
  empty : b = none ↔ a = none

namespace Agree

variable {a b : Link} (h : Agree f g look look' a b)
include h

theorem isBlock : isBlock g b = isBlock f a := by
  rw [Printer.isBlock, h.kind, Printer.isBlock]

theorem rel : Option.Rel (fun a b => look' (some b) = look (some a)) a b := by
  obtain ⟨found, -, empty⟩ := h
  cases a <;> cases b <;> simp at empty
  · exact .none
  · exact .some found

end Agree

/-- For lists that agree the same texts are found. -/
theorem mapM_agree {as bs : List Link} (h : List.Forall₂ (Agree f g look look') as bs) :
    bs.mapM look' = as.mapM look :=
  mapM_eq_of_forall₂ (h.imp fun _ _ agree => agree.found)

/-- Elements that agree have one text between the brackets. -/
theorem elements_agree {as bs : List Link} (h : List.Forall₂ (Agree f g look look') as bs) :
    (elements g bs).withParts look' = (elements f as).withParts look := by
  have ends : endsWithElision g bs = endsWithElision f as := by
    have backward := List.forall₂_reverse_iff.mpr h
    rw [endsWithElision, endsWithElision, ← List.head?_reverse, ← List.head?_reverse]
    generalize as.reverse = xs, bs.reverse = ys at backward
    cases backward with
    | nil => rfl
    | cons last => exact congrArg (· == some Kind.emptyExpression) last.kind
  simp [elements, withParts_bind, ends, mapM_agree h]

/-- Bodies that agree have one text behind the head of the loop. -/
theorem loopBody_agree {a b : Link} (h : Agree f g look look' a b) (o : PrinterOptions)
    (kind : Kind) :
    (loopBody g o kind b).withParts look' = (loopBody f o kind a).withParts look := by
  simp [loopBody, withParts_bind, h.found, h.empty, h.isBlock]

/-- **Contents of one kind and spelling have one text if their parts agree.** -/
theorem ofContents_agree (o : PrinterOptions) {c d : Contents} (kind : c.kind = d.kind)
    (spelling : c.spelling? = d.spelling?)
    (parts : ∀ part, List.Forall₂ (Agree f g look look') (c.occupants part) (d.occupants part))
    (depth : Nat) :
    (ofContents g o d depth).withParts look' = (ofContents f o c depth).withParts look := by
  have child (slot : ChildSlot) {a b : Link} (ha : c.child? slot = some a)
      (hb : d.child? slot = some b) : Agree f g look look' a b := by
    have both := parts (.child slot)
    rw [Contents.occupants, ha, Contents.occupants, hb] at both
    cases both with
    | cons agree => exact agree
  have list (slot : ListSlot) {as bs : List Link} (has : c.list? slot = some as)
      (hbs : d.list? slot = some bs) : List.Forall₂ (Agree f g look look') as bs := by
    have both := parts (.list slot)
    rwa [Contents.occupants, has, Contents.occupants, hbs] at both
  cases c <;> cases d <;> cases kind
  case name c d =>
    obtain ⟨identifier⟩ := c
    cases spelling
    rfl
  case numberLiteral c d =>
    obtain ⟨token⟩ := c
    cases spelling
    rw [ofContents, ofContents]
    cases d.token <;> rfl
  case stringLiteral c d =>
    obtain ⟨value, quote⟩ := c
    cases spelling
    rfl
  case keywordLiteral c d =>
    obtain ⟨keyword⟩ := c
    cases spelling
    rfl
  case arrayLiteral | objectLiteral =>
    have inner := elements_agree (list .elements rfl rfl)
    simp only [ofContents, withParts_bind, withParts_pure, inner]
  case objectProperty =>
    have left := child .left rfl rfl
    have right := child .right rfl rfl
    simp [ofContents, withParts_bind, left.found, left.empty, right.found, right.empty]
  case block =>
    have statements := mapM_agree (list .statements rfl rfl)
    simp [ofContents, withParts_bind, statements]
  case expressionStatement =>
    have expression := child .expression rfl rfl
    simp [ofContents, withParts_bind, expression.found, expression.empty]
  case ifStatement =>
    have test := child .condition rfl rfl
    have thenPart := child .thenPart rfl rfl
    have elsePart := child .elsePart rfl rfl
    simp [ofContents, ifStatement, withParts_bind, test.found, test.empty, thenPart.found,
      thenPart.empty, thenPart.isBlock, elsePart.found, elsePart.kind, elsePart.empty,
      elsePart.isBlock]
  case tryStatement =>
    have block := child .tryBlock rfl rfl
    have handlers := mapM_agree (list .catchClauses rfl rfl)
    have last := child .finallyBlock rfl rfl
    simp [ofContents, tryStatement, withParts_bind, block.found, block.empty, handlers,
      last.found, last.empty]
  case catchClause =>
    have parameter := child .varName rfl rfl
    have guard := child .guard rfl rfl
    have body := child .handlerBody rfl rfl
    simp [ofContents, catchClause, withParts_bind, parameter.found, parameter.empty, guard.found,
      guard.empty, body.found, body.empty]
  case forInLoop c d =>
    have each : c.isForEach = d.isForEach := by
      injection spelling with spelling
      injection spelling
    have iterator := child .iterator rfl rfl
    have object := child .iteratedObject rfl rfl
    have body := loopBody_agree (child .body rfl rfl) o .forInLoop
    simp [ofContents, forInLoop, withParts_bind, each, iterator.found, iterator.empty,
      object.found, object.empty, body]
  case doLoop =>
    have body := child .body rfl rfl
    have test := child .condition rfl rfl
    simp [ofContents, doLoop, withParts_bind, body.found, body.empty, test.found, test.empty]
  case whileLoop =>
    have test := child .condition rfl rfl
    have body := loopBody_agree (child .body rfl rfl) o .whileLoop
    simp [ofContents, whileLoop, withParts_bind, test.found, test.empty, body]

/-! ## Parts of trees that are the same -/

section

variable {o : PrinterOptions} {texts texts' : PrintJob → Except TreeError String}
  {x y : NodeIndex} {c d : Contents} (hf : f.Linked) (hg : g.Linked)
  (hc : f.contents? (some x) = some c) (hd : g.contents? (some y) = some d)
  (kind : c.kind = d.kind)
include hf hg hc hd kind

/-- **Children that stand in the same part are printed at the same depth.** -/
theorem childDepth_agree {part : Part} {a b : NodeIndex} (ha : some a ∈ c.occupants part)
    (hb : some b ∈ d.occupants part) (kinds : f.kind? (some a) = g.kind? (some b)) (depth : Nat) :
    childDepth g d.kind y b depth = childDepth f c.kind x a depth := by
  cases part with
  | child slot =>
    have stands {h : Forest} {z w : NodeIndex} {e : Contents} (he : h.contents? (some z) = some e)
        (hw : some w ∈ e.occupants (.child slot)) : h.child (some z) slot = some w := by
      rw [Forest.child, he, Option.bind_some, Option.mem_toList.mp hw, Option.join_some]
    rw [childDepth_eq_slotDepth hg _ (stands hd hb), childDepth_eq_slotDepth hf _ (stands hc ha),
      isBlock, isBlock, kind, kinds]
  | list slot =>
    -- what has a list prints all its children at one depth
    rw [← kind]
    cases c <;> first | rfl | cases ha
  | token => cases ha

/-- Parts agree if the trees that stand in them are the same. -/
theorem forall₂_agree {part : Part}
    (same : List.Forall₂ (f.Same g) (c.occupants part) (d.occupants part))
    (below : ∀ {a b depth}, a ∈ f.below x → f.Same g (some a) (some b) →
      texts' ⟨b, depth⟩ = texts ⟨a, depth⟩)
    (depth : Nat) :
    List.Forall₂ (Agree f g (lookBelow f texts c.kind x depth) (lookBelow g texts' d.kind y depth))
      (c.occupants part) (d.occupants part) := by
  refine (forall₂_mem same).imp fun a b entry => ?_
  obtain ⟨ha, hb, same⟩ := entry
  cases same with
  | absent => exact ⟨rfl, rfl, .rfl⟩
  | @node a b kinds spelling parts =>
    have inside : a ∈ f.below x := by
      apply Forest.mem_children_of_occupant part
      rwa [Forest.occupants, hc]
    have depths := childDepth_agree hf hg hc hd kind ha hb kinds depth
    refine ⟨?_, kinds.symm, iff_of_false (Option.some_ne_none b) (Option.some_ne_none a)⟩
    show texts' ⟨b, _⟩ = texts ⟨a, _⟩
    rw [depths]
    exact below inside (.node kinds spelling parts)

end

/-- **Recursion gives one text for trees that are the same**, by induction on the first. -/
theorem text_eq_of_same {o : PrinterOptions} {texts texts' : PrintJob → Except TreeError String}
    (htexts : (assembly f o).Recursive texts) (htexts' : (assembly g o).Recursive texts')
    (hf : f.Linked) (hg : g.Linked) {x y : NodeIndex} (hx : f.contains (some x))
    (same : f.Same g (some x) (some y)) (depth : Nat) :
    texts' ⟨y, depth⟩ = texts ⟨x, depth⟩ := by
  induction hn : f.rank x using Nat.strongRecOn generalizing x y depth with
  | ind n ih =>
    have below {a b : NodeIndex} {depth : Nat} (ha : a ∈ f.below x)
        (same : f.Same g (some a) (some b)) : texts' ⟨b, depth⟩ = texts ⟨a, depth⟩ :=
      ih _ (hn ▸ hf.rank_lt x a ha) (hf.contains_of_mem_children ha) same depth rfl
    obtain - | ⟨kind, spelling, parts⟩ := same
    obtain ⟨hc, hd⟩ | ⟨c, d, hc, hd, kinds⟩ := Forest.contents?_cases hf.intact hg.intact kind
    · obtain ⟨h, hh⟩ := Forest.exists_header?_of_contains hx
      have hk := Forest.kind?_of_header? hh
      let look (_ : Link) : Except TreeError String := .error (.unknownNode none)
      rw [text_of_bare htexts hk hc depth look,
        text_of_bare htexts' (kind.symm.trans hk) hd depth look]
    · have agree (part : Part) : List.Forall₂ (Agree f g (lookBelow f texts c.kind x depth)
          (lookBelow g texts' d.kind y depth)) (c.occupants part) (d.occupants part) := by
        refine forall₂_agree hf hg hc hd kinds ?_ below depth
        rw [← Forest.occupants_of_contents? hc, ← Forest.occupants_of_contents? hd]
        exact parts part
      have children : List.Forall₂ (fun a b => lookBelow g texts' d.kind y depth (some b) =
          lookBelow f texts c.kind x depth (some a)) c.children d.children :=
        List.rel_filterMap (fun _ _ (h : Agree f g _ _ _ _) => h.rel)
          ((Contents.forall₂_links_iff kinds).mpr agree)
      rw [Forest.spelling?, hc, Forest.spelling?, hd] at spelling
      rw [text_of_contents htexts hc, text_of_contents htexts' hd, mapM_eq_of_forall₂ children,
        ofContents_agree o kinds spelling agree]

end Printer

namespace Forest.Same

variable {f g : Forest} {x y : NodeIndex} (h : f.Same g (some x) (some y)) (hf : f.Linked)
  (hg : g.Linked) (hx : f.contains (some x))
include h hf hg hx

/-- Trees that are the same have the same height. -/
theorem height_eq : g.height (some y) = f.height (some x) := by
  obtain ⟨header, hheader⟩ := exists_header?_of_contains hx
  have hy := contains_of_kind? (h.kind?_eq.symm.trans (kind?_of_header? hheader))
  have shapes := (hf.sameShape_iff hg x y).mp (h.sameShape_eq hf hg)
  rw [Linked.height_eq_shape hy, ← shapes, Linked.height_eq_shape hx]

/-- **Trees that are the same have one text**, at every depth and with all options, or the same
error. -/
theorem print_eq (o : PrinterOptions) (depth : Nat) :
    g.print o (some y) depth = f.print o (some x) depth := by
  rw [Forest.print_eq, Forest.print_eq]
  refine (Printer.follows f o).answer_eq (Printer.follows g o) (Printer.thorough f o)
    (Printer.thorough g o) hf hg (h.height_eq hf hg hx) fun texts texts' htexts htexts' => ?_
  exact Printer.text_eq_of_same htexts htexts' hf hg hx h depth

end Forest.Same

end SyntaxForest
