import SyntaxForest.Proofs.Runs

/-!
# Fidelity of clones

A clone is a tree of new nodes that repeats its source node by node.  `Forest.Faithful` says so by
position: the new nodes stand behind the old ones in pre-order, so the copy of the node at a
position of the source is found by counting.

Nothing in a copy points back into the source.  Each link of a copy is a copy of the link at the
same place (`IsCopy`), and the copy of a node is a new node; only the parent of the first new node
is what the caller names, which may be any node, one of the source as well.
-/

namespace SyntaxForest

namespace Forest

/-- Whether a link of a clone of a tree is the copy of a link: absent where that is absent, and else
at the position that the node has in the tree. -/
inductive IsCopy (f : Forest) (source : NodeIndex) : Link → Link → Prop where
  | absent : IsCopy f source none none
  | present {i : Nat} {x : NodeIndex} (h : (f.preorder (some source))[i]? = some x) :
    IsCopy f source (some x) (some (f.size + i))

/-- What it means that the tree of a node has been cloned under a parent, with an answer. -/
structure Faithful (f g : Forest) (source : NodeIndex) (parent : Link) (copy : NodeIndex) :
    Prop where
  size : g.size = f.size + (f.preorder (some source)).length
  preorder : g.preorder (some copy) = List.range' f.size (f.preorder (some source)).length
  header : ∀ {i x}, (f.preorder (some source))[i]? = some x →
    ∃ h h', f.header? (some x) = some h ∧ g.header? (some (f.size + i)) = some h' ∧
      h'.kind = h.kind ∧ h'.pos = h.pos ∧ h'.len = h.len
  scalars : ∀ {i x}, (f.preorder (some source))[i]? = some x →
    (g.contents? (some (f.size + i))).map (·.scalars) = (f.contents? (some x)).map (·.scalars)
  record : ∀ {i x}, (f.preorder (some source))[i]? = some x →
    (g.record? (some (f.size + i))).map (·.withParent none) =
      (f.record? (some x)).map (·.withParent none)
  child : ∀ {i x slot}, (f.preorder (some source))[i]? = some x →
    IsCopy f source (f.child (some x) slot) (g.child (some (f.size + i)) slot)
  list : ∀ {i x slot}, (f.preorder (some source))[i]? = some x →
    List.Forall₂ (IsCopy f source) (f.list (some x) slot) (g.list (some (f.size + i)) slot)
  /-- The first copy has the parent that was asked for. -/
  parent_root : g.parent (some copy) = parent
  /-- Every other copy has as parent the copy of the parent. -/
  parent : ∀ {i x}, (f.preorder (some source))[i + 1]? = some x →
    f.parent (some x) ≠ none ∧
      IsCopy f source (f.parent (some x)) (g.parent (some (f.size + (i + 1))))
  /-- What was there before is as it was. -/
  old : ∀ {y}, f.contains y →
    g.header? y = f.header? y ∧ g.contents? y = f.contents? y ∧ g.record? y = f.record? y

variable {f g : Forest} {source : NodeIndex} {parent : Link}

/-- The copy of the node at a position is found by counting. -/
theorem Linked.copyOf_of_getElem? (hf : f.Linked) {i : Nat} {x : NodeIndex}
    (h : (f.preorder (some source))[i]? = some x) : f.copyOf source x = f.size + i := by
  obtain ⟨hi, rfl⟩ := List.getElem?_eq_some_iff.mp h
  rw [copyOf, (hf.nodup_preorder (some source)).idxOf_getElem]

/-- To name the copy of a node in the tree is to copy the link to it. -/
theorem Linked.isCopy_map (hf : f.Linked) {a : Link}
    (ha : ∀ x ∈ a, x ∈ f.preorder (some source)) :
    IsCopy f source a (a.map (f.copyOf source)) := by
  cases a with
  | none => exact .absent
  | some x =>
    obtain ⟨i, hi⟩ := List.mem_iff_getElem?.mp (ha x rfl)
    rw [Option.map_some, hf.copyOf_of_getElem? hi]
    exact .present hi

/-- **What cloning does is faithful.** -/
theorem Cloned.faithful (hf : f.Linked) (hsource : f.contains (some source))
    (t : f.Cloned g source parent) : f.Faithful g source parent f.size := by
  have listed {i : Nat} {x : NodeIndex} (h : (f.preorder (some source))[i]? = some x) :
      x ∈ f.preorder (some source) := List.mem_of_getElem? h
  refine ⟨t.size, t.preorder_copy hf hsource, ?_, ?_, ?_, ?_, ?_, t.parent_root hf hsource, ?_, ?_⟩
  · intro i x hx
    rw [← hf.copyOf_of_getElem? hx]
    obtain ⟨h, entry, hh, hcopy⟩ := t.header? (listed hx)
    exact ⟨h, _, hh, hcopy, rfl, rfl, rfl⟩
  · intro i x hx
    rw [← hf.copyOf_of_getElem? hx, t.contents? (listed hx), Option.map_map]
    exact Option.map_congr fun c _ => Contents.scalars_rewire ..
  · intro i x hx
    rw [← hf.copyOf_of_getElem? hx, t.record? (listed hx), Option.map_map]
    rfl
  · intro i x slot hx
    rw [← hf.copyOf_of_getElem? hx, t.child_copy (listed hx)]
    apply hf.isCopy_map
    intro y hy
    exact hf.mem_preorder_of_below hsource (listed hx) (mem_children_of_child slot hy)
  · intro i x slot hx
    rw [← hf.copyOf_of_getElem? hx, t.list_copy (listed hx), List.forall₂_map_right_iff,
      List.forall₂_same]
    intro a ha
    apply hf.isCopy_map
    intro y hy
    have below : y ∈ f.below x := mem_children_of_mem_list slot (hy ▸ ha)
    exact hf.mem_preorder_of_below hsource (listed hx) below
  · intro i x hx
    rw [← hf.copyOf_of_getElem? hx, t.parent_copy hf (listed hx)]
    -- only the first of the order is the source, so `x` lies below another node of the tree
    have path := (hf.mem_preorder_iff hsource).mp (listed hx)
    rcases Relation.ReflTransGen.cases_tail path with rfl | ⟨z, hz, step⟩
    · have first := hf.copyOf_of_getElem? hx
      rw [hf.copyOf_source hsource] at first
      exact absurd first (Nat.ne_of_lt (Nat.lt_add_of_pos_right (Nat.succ_pos i)))
    · have hz := (hf.mem_preorder_iff hsource).mpr hz
      have above : f.parent (some x) = some z := hf.parent_of_mem step
      refine ⟨above ▸ Option.some_ne_none z, ?_⟩
      rw [hf.adopter_of_mem hsource hz step, above]
      apply hf.isCopy_map
      intro y hy
      exact Option.some.inj hy ▸ hz
  · intro y hy
    exact ⟨t.header?_old hy, t.contents?_old hy, t.record?_old hy⟩

end Forest

/-- **A clone succeeds exactly if source and parent are there and the tree is not too high, and then
it is faithful.** -/
theorem Reached.clone_faithful {f : Forest} {loose : List NodeIndex} (h : Reached f loose)
    (x parent : Link) :
    ((∃ copy g, (Editing.clone x parent).run f = .ok copy g) ↔
      f.contains x ∧ (parent = none ∨ f.contains parent) ∧ f.height x ≤ Forest.maxHeight) ∧
    ∀ copy g, (Editing.clone x parent).run f = .ok copy g →
      ∃ source, x = some source ∧ f.Faithful g source parent copy := by
  have hf := h.tended.linked
  refine ⟨⟨?_, ?_⟩, ?_⟩
  · rintro ⟨copy, g, run⟩
    obtain ⟨source, rfl, clonable, -, -⟩ := hf.cloned_of_run_ok run
    exact ⟨clonable.node, clonable.parent, clonable.height⟩
  · rintro ⟨node, hparent, height⟩
    cases x with
    | none => cases node
    | some source =>
      obtain ⟨g, run, -⟩ := hf.run_clone ⟨node, hparent, height⟩
      exact ⟨f.size, g, run⟩
  · intro copy g run
    obtain ⟨source, rfl, clonable, rfl, t⟩ := hf.cloned_of_run_ok run
    exact ⟨source, rfl, t.faithful hf clonable.node⟩

/-- The loop is cloned under its own condition. -/
theorem clone_faithful_nested : ∃ copy g,
    (Editing.clone (some 1) (some 2)).run (Command.perform Command.nested).1 = .ok copy g ∧
      ∃ source, some 1 = some source ∧
        (Command.perform Command.nested).1.Faithful g source (some 2) copy := by
  have clones := Reached.clone_faithful (reached_perform Command.nested) (some 1) (some 2)
  obtain ⟨copy, g, run⟩ :=
    clones.1.mpr ⟨by decide +kernel, .inr (by decide +kernel), by decide +kernel⟩
  exact ⟨copy, g, run, clones.2 copy g run⟩

end SyntaxForest
