import Mathlib.Data.List.Forall2
import SyntaxForest.Proofs.Ending

/-!
# Trees that are the same

Two trees are the same if they have nodes of the same kinds in the same parts all the way down, with
the same texts in the leaves and the same flags on the loops (`Forest.Same`).  This compares what
source code shows of a tree.  Ranges, positions, records and destructuring are not compared, and
neither are the indices of the nodes.
-/

namespace SyntaxForest

/-- What source code shows of a node besides its kind and its children. -/
inductive Spelling where
  | name (identifier : String)
  | number (token : Option String)
  | string (value : String) (quote : Char)
  | keyword (keyword : Keyword)
  | loop (isForEach : Bool)
  deriving DecidableEq, Repr

theorem ChildSlot.forall_iff {P : ChildSlot → Prop} : (∀ slot, P slot) ↔ ∀ slot ∈ all, P slot :=
  ⟨fun h slot _ => h slot, fun h slot => h slot slot.mem_all⟩

theorem ListSlot.forall_iff {P : ListSlot → Prop} : (∀ slot, P slot) ↔ ∀ slot ∈ all, P slot :=
  ⟨fun h slot _ => h slot, fun h slot => h slot slot.mem_all⟩

theorem Part.forall_iff {P : Part → Prop} : (∀ part, P part) ↔
    (∀ slot, P (.child slot)) ∧ (∀ slot, P (.list slot)) ∧ P .token := by
  refine ⟨fun h => ⟨fun _ => h _, fun _ => h _, h _⟩, ?_⟩
  rintro ⟨child, list, token⟩ (slot | slot | _)
  · exact child slot
  · exact list slot
  · exact token

/-- Entries that correspond are entries of the two lists. -/
theorem forall₂_mem {R : Link → Link → Prop} {as bs : List Link} (h : List.Forall₂ R as bs) :
    List.Forall₂ (fun a b => a ∈ as ∧ b ∈ bs ∧ R a b) as bs := by
  refine List.forall₂_iff_zip.mpr ⟨h.length_eq, fun {a b} hab => ?_⟩
  obtain ⟨ha, hb⟩ := List.of_mem_zip hab
  exact ⟨ha, hb, List.forall₂_zip h hab⟩

namespace Contents

/-- What source code shows of the contents besides the links. -/
def spelling? : Contents → Option Spelling
  | .name c => some (.name c.identifier)
  | .numberLiteral c => some (.number c.token)
  | .stringLiteral c => some (.string c.value c.quote)
  | .keywordLiteral c => some (.keyword c.keyword)
  | .forInLoop c => some (.loop c.isForEach)
  | _ => none

theorem forall₂_concat_iff {α β : Type} {R : α → β → Prop} {as : List α} {bs : List β} {a : α}
    {b : β} : List.Forall₂ R (as ++ [a]) (bs ++ [b]) ↔ List.Forall₂ R as bs ∧ R a b := by
  rw [← List.forall₂_reverse_iff, List.reverse_append, List.reverse_append]
  simp [and_comm]

/-- Contents of one kind have the same parts in the same order, so to compare them link by link is
to compare them part by part. -/
theorem forall₂_links_iff {R : Link → Link → Prop} {c d : Contents} (hkind : c.kind = d.kind) :
    List.Forall₂ R c.links d.links ↔
      ∀ part, List.Forall₂ R (c.occupants part) (d.occupants part) := by
  rw [Part.forall_iff, ChildSlot.forall_iff, ListSlot.forall_iff]
  simp only [ChildSlot.all, ListSlot.all, List.forall_mem_cons]
  cases c <;> cases d <;> cases hkind <;>
    simp [occupants, links, child?, list?, forall₂_concat_iff, and_comm, and_assoc,
      and_left_comm]

end Contents

namespace Forest

/-- What source code shows of a node besides its kind and its children. -/
def spelling? (f : Forest) (x : Link) : Option Spelling := (f.contents? x).bind Contents.spelling?

/-- Nodes of one kind both have contents, of one kind, or neither has. -/
theorem contents?_cases {f g : Forest} (hf : f.Intact) (hg : g.Intact) {x y : Link}
    (kind : f.kind? x = g.kind? y) : (f.contents? x = none ∧ g.contents? y = none) ∨
      ∃ c d, f.contents? x = some c ∧ g.contents? y = some d ∧ c.kind = d.kind := by
  have both : (f.contents? x).isSome = (g.contents? y).isSome := by
    rw [hf.isSome_contents?_eq, hg.isSome_contents?_eq, kind]
  cases hc : f.contents? x <;> cases hd : g.contents? y <;> rw [hc, hd] at both
  · exact .inl ⟨rfl, rfl⟩
  · cases both
  · cases both
  · next c d =>
    rw [kind?_of_contents? hc, kind?_of_contents? hd] at kind
    exact .inr ⟨c, d, rfl, rfl, Option.some.inj kind⟩

/-- **Two trees are the same.**  A part is a slot or a list of children. -/
inductive Same (f g : Forest) : Link → Link → Prop where
  | absent : Same f g none none
  | node {x y : NodeIndex} (kind : f.kind? (some x) = g.kind? (some y))
      (spelling : f.spelling? (some x) = g.spelling? (some y))
      (parts : ∀ part, List.Forall₂ (Same f g)
        (f.occupants (some x) part) (g.occupants (some y) part)) :
    Same f g (some x) (some y)

namespace Same

variable {f g : Forest} {x y : Link}

/-- Nodes whose contents are the same. -/
theorem of_contents {c d : Contents} (hc : f.contents? x = some c) (hd : g.contents? y = some d)
    (kind : c.kind = d.kind) (spelling : c.spelling? = d.spelling?)
    (links : List.Forall₂ (Same f g) c.links d.links) : Same f g x y := by
  cases x with
  | none => cases hc
  | some x =>
    cases y with
    | none => cases hd
    | some y =>
      refine .node ?_ ?_ fun part => ?_
      · rw [kind?_of_contents? hc, kind?_of_contents? hd, kind]
      · rw [spelling?, hc, spelling?, hd, Option.bind_some, Option.bind_some, spelling]
      · rw [occupants_of_contents? hc, occupants_of_contents? hd]
        exact (Contents.forall₂_links_iff kind).mp links part

/-- Nodes that have nothing besides their kind. -/
theorem of_bare (hf : f.Intact) (hg : g.Intact) {k : Kind} (hk : f.kind? x = some k)
    (hk' : g.kind? y = some k) (bare : k.isBare) : Same f g x y := by
  have empty : f.contents? x = none := by simpa [hk, bare] using hf.isSome_contents?_eq x
  have empty' : g.contents? y = none := by simpa [hk', bare] using hg.isSome_contents?_eq y
  cases x with
  | none => cases hk
  | some x =>
    cases y with
    | none => cases hk'
    | some y =>
      refine .node (hk.trans hk'.symm) ?_ fun part => ?_
      · rw [spelling?, empty, spelling?, empty']
      · rw [occupants, empty, occupants, empty']
        exact .nil

theorem kind?_eq (h : Same f g x y) : f.kind? x = g.kind? y := by
  cases h with
  | absent => rfl
  | node kind => exact kind

/-- The links that stand in one of two trees are those that stand in the other. -/
theorem rel (h : Same f g x y) :
    Option.Rel (fun a b => Same f g (some a) (some b)) x y := by
  cases h with
  | absent => exact .none
  | node kind spelling parts => exact .some (.node kind spelling parts)

/-- The children are the same, in the same order. -/
theorem children (hf : f.Intact) (hg : g.Intact) (h : Same f g x y) :
    List.Forall₂ (fun a b => Same f g (some a) (some b)) (f.children x) (g.children y) := by
  cases h with
  | absent => exact .nil
  | @node x y kind spelling parts =>
    obtain ⟨hc, hd⟩ | ⟨c, d, hc, hd, kinds⟩ := contents?_cases hf hg kind
    · rw [Forest.children, hc, Forest.children, hd]
      exact .nil
    · rw [children_of_contents? hc, children_of_contents? hd]
      have links : List.Forall₂ (Same f g) c.links d.links := by
        refine (Contents.forall₂_links_iff kinds).mpr fun part => ?_
        rw [← occupants_of_contents? hc, ← occupants_of_contents? hd]
        exact parts part
      exact List.rel_filterMap (fun a b (same : Same f g a b) => same.rel) links

/-- **Trees that are the same have the same shape.** -/
theorem sameShape_eq (hf : f.Linked) (hg : g.Linked) (h : Same f g x y) :
    f.sameShape x g y = true := by
  have descends := hf.pairRank_lt hg
  have enough := pairRank_le f g (x, y)
  rw [sameShape, Traversal.everywhere_iff _ _ _ descends _ _ enough]
  intro room pair hpair
  have same : Same f g pair.1 pair.2 := by
    -- going down from two trees that are the same leads to two that are the same
    have way := Traversal.reaches_of_mem_unfolding hpair
    clear hpair
    induction way with
    | refl => exact h
    | tail _ step ih =>
      obtain ⟨⟨a, b⟩, hab, rfl⟩ := List.mem_map.mp (List.mem_reverse.mp step)
      exact List.forall₂_zip (ih.children hf.intact hg.intact) hab
  have counts := (same.children hf.intact hg.intact).length_eq
  exact Bool.and_eq_true_iff.mpr ⟨beq_iff_eq.mpr same.kind?_eq, beq_iff_eq.mpr counts⟩

end Same

end Forest

end SyntaxForest
