import SyntaxForest.Outline
import SyntaxForest.Proofs.Ending
import SyntaxForest.Proofs.Renaming
import SyntaxForest.Proofs.SameTexts

/-!
# Trees that cannot be told apart

Two trees are *alike* if one is the other under other names: the same kinds and ranges, the same
contents with every link renamed, and the same records but for the parents (`Forest.Alike`).  Names
of different nodes have to stay different, so that what is found for one child is not taken for
another.

Every walker of this library gives the same for trees that are alike: the order and the height, the
source text, the record, the outline and the shape.  Height, text and shape do not need all of this:
trees that are alike are the same (`Alike.same`).  A tree that an operation leaves alone is alike to
itself under its own names, and a clone is alike to its source (`Cloned.alike_copy`), so it cannot be
told from it.
-/

namespace SyntaxForest

/-- The line of a node in an outline whose first node has a number of ancestors. -/
def Outline.lineAt (f : Forest) (base : Nat) (y : NodeIndex) : String :=
  match f.header? (some y) with
  | some h => line h (f.depth (some y) - base)
  | none => ""

namespace Forest

/-- **The outline of a tree is the lines of its nodes in pre-order.** -/
theorem Linked.outline_some {f : Forest} (hf : f.Linked) {x : NodeIndex}
    (hx : f.contains (some x)) : f.outline (some x) =
      (f.preorder (some x)).foldl
        (fun text y => text ++ Outline.lineAt f (f.depth (some x)) y) "" := by
  have based (base : Nat) (ys : List NodeIndex) (text : String) :
      ys.foldl (fun dump y => (Outline.visitor f dump y).1) ⟨text, some base⟩ =
        ⟨ys.foldl (fun text y => text ++ Outline.lineAt f base y) text, some base⟩ := by
    induction ys generalizing text with
    | nil => rfl
    | cons y ys ih =>
      have step : (Outline.visitor f ⟨text, some base⟩ y).1 =
          ⟨text ++ Outline.lineAt f base y, some base⟩ := by
        rw [Outline.visitor, Outline.lineAt]
        cases f.header? (some y) with
        | none => simp
        | some h => rfl
      rw [List.foldl_cons, step, ih, List.foldl_cons]
  have goes : ∀ y ∈ Traversal.unfolding f.below f.size x, ∀ dump,
      (Outline.visitor f dump y).2 = true := by
    intro y hy dump
    rw [← preorder_some hx] at hy
    obtain ⟨h, hh⟩ := exists_header?_of_contains (hf.contains_of_mem_preorder hy)
    rw [Outline.visitor, hh]
  have first : (Outline.visitor f {} x).1 =
      ⟨"" ++ Outline.lineAt f (f.depth (some x)) x, some (f.depth (some x))⟩ := by
    obtain ⟨h, hh⟩ := exists_header?_of_contains hx
    rw [Outline.visitor, hh, Outline.lineAt, hh]
    rfl
  rw [outline, visit]
  simp only [hx, if_true]
  rw [Traversal.walk_eq_explore, List.foldl_cons, List.foldl_nil,
    Traversal.explore_eq_foldl goes, ← preorder_some hx, hf.preorder_eq hx, List.foldl_cons, first,
    based, List.foldl_cons]

variable {f g : Forest} {name : NodeIndex → NodeIndex} {x : NodeIndex}

/-- The tree of a node stands in another forest too, under other names and perhaps under another
parent. -/
structure Alike (f g : Forest) (name : NodeIndex → NodeIndex) (x : NodeIndex) : Prop where
  header : ∀ {y}, y ∈ f.preorder (some x) → ∃ h h', f.header? (some y) = some h ∧
    g.header? (some (name y)) = some h' ∧ h'.kind = h.kind ∧ h'.pos = h.pos ∧ h'.len = h.len
  contents? : ∀ {y}, y ∈ f.preorder (some x) →
    g.contents? (some (name y)) = (f.contents? (some y)).map (·.mapLinks (·.map name))
  record? : ∀ {y}, y ∈ f.preorder (some x) →
    (g.record? (some (name y))).map (·.withParent none) =
      (f.record? (some y)).map (·.withParent none)
  inj : ∀ {y z}, y ∈ f.preorder (some x) → z ∈ f.preorder (some x) → name y = name z → y = z

namespace Alike

variable (t : f.Alike g name x)
include t

/-! ## Node by node -/

theorem kind? {y : NodeIndex} (hy : y ∈ f.preorder (some x)) :
    g.kind? (some (name y)) = f.kind? (some y) := by
  obtain ⟨h, h', hh, hh', kind, -⟩ := t.header hy
  rw [Forest.kind?, hh', Forest.kind?, hh, Option.map_some, Option.map_some, kind]

theorem contains {y : NodeIndex} (hy : y ∈ f.preorder (some x)) : g.contains (some (name y)) := by
  obtain ⟨-, h', -, hh', -⟩ := t.header hy
  exact contains_of_header? hh'

theorem below {y : NodeIndex} (hy : y ∈ f.preorder (some x)) :
    g.below (name y) = (f.below y).map name :=
  children_of_renamed (t.contents? hy)

theorem held? {y : NodeIndex} (hy : y ∈ f.preorder (some x)) {h h' : Header}
    (hh : f.header? (some y) = some h) (hh' : g.header? (some (name y)) = some h') :
    g.held? h' = (f.held? h).map (·.mapLinks (·.map name)) := by
  have contents := t.contents? hy
  rwa [Forest.contents?, hh', Forest.contents?, hh, Option.bind_some, Option.bind_some] at contents

/-- The annotator's fields are the same. -/
theorem trailer_eq {y : NodeIndex} (hy : y ∈ f.preorder (some x)) :
    Interchange.trailer ((g.record? (some (name y))).getD {}) =
      Interchange.trailer ((f.record? (some y)).getD {}) := by
  have blind (r : Option NodeRecord) : Interchange.trailer (r.getD {}) =
      Interchange.trailer ((r.map (·.withParent none)).getD {}) := by
    cases r <;> rfl
  rw [blind, t.record? hy, ← blind]

/-! ## Order and height -/

variable (hf : f.Linked) (hg : g.Linked) (hx : f.contains (some x))
include hf hx

omit t in
theorem mem_preorder_of_mem_unfolding {room : Nat} {y : NodeIndex}
    (hy : y ∈ Traversal.unfolding f.below room x) : y ∈ f.preorder (some x) :=
  (hf.mem_preorder_iff hx).mpr (Traversal.reaches_of_mem_unfolding hy)

theorem root : g.contains (some (name x)) := t.contains (hf.mem_preorder_self hx)

include hg

/-- **The order of the tree is the same.** -/
theorem preorder : g.preorder (some (name x)) = (f.preorder (some x)).map name := by
  have left := Nat.le_max_left f.size g.size
  have right := Nat.le_max_right f.size g.size
  rw [preorder_some hx, preorder_some (t.root hf hx),
    ← Traversal.unfolding_of_le hf.rank_lt (f.rank_le x) left,
    ← Traversal.unfolding_of_le hg.rank_lt (g.rank_le _) right]
  exact Traversal.unfolding_map name fun y hy =>
    t.below (mem_preorder_of_mem_unfolding hf hx hy)

omit hg in
/-- **A tree and one that is alike to it are the same.** -/
theorem same : f.Same g (some x) (some (name x)) := by
  suffices each : ∀ {y}, y ∈ f.preorder (some x) → f.Same g (some y) (some (name y)) from
    each (hf.mem_preorder_self hx)
  intro y hy
  induction hn : f.rank y using Nat.strongRecOn generalizing y with
  | ind n ih =>
    have contents := t.contents? hy
    cases hc : f.contents? (some y) with
    | none =>
      rw [hc] at contents
      refine .node (t.kind? hy).symm ?_ fun part => ?_
      · rw [spelling?, hc, spelling?, contents]
        rfl
      · rw [occupants, hc, occupants, contents]
        exact .nil
    | some c =>
      rw [hc] at contents
      refine .of_contents hc contents (Contents.kind_mapLinks ..).symm (by cases c <;> rfl) ?_
      rw [Contents.links_mapLinks, List.forall₂_map_right_iff, List.forall₂_same]
      intro a ha
      cases a with
      | none => exact .absent
      | some z =>
        have below : z ∈ f.below y := mem_children_iff.mpr ⟨c, hc, ha⟩
        exact ih _ (hn ▸ hf.rank_lt y z below) (hf.mem_preorder_of_below hx hy below) rfl

/-- **The height is the same.** -/
theorem height : g.height (some (name x)) = f.height (some x) :=
  (t.same hf hx).height_eq hf hg hx

/-- **The text of the tree is the same**, at every depth and with every option. -/
theorem print_eq (o : PrinterOptions) (depth : Nat) :
    g.print o (some (name x)) depth = f.print o (some x) depth :=
  (t.same hf hx).print_eq hf hg hx o depth

/-! ## Records -/

omit hg in
/-- To record a node of the tree is the same job in both forests. -/
theorem mirrors_record {y : NodeIndex} (hy : y ∈ f.preorder (some x)) :
    (Interchange.assembly f).Mirrors (Interchange.assembly g) name name y := by
  obtain ⟨h, h', hh, hh', kind, -⟩ := t.header hy
  have held := t.held? hy hh hh'
  have inside (z : NodeIndex) (hz : z ∈ (Interchange.assembly f).below y) :
      z ∈ f.preorder (some x) :=
    hf.mem_preorder_of_below hx hy
      ((Interchange.follows f y).subset (List.mem_map_of_mem hz))
  refine ⟨⟨_, Interchange.parts_eq hh, (Interchange.parts_eq hh').trans ?_⟩, fun _ _ => rfl, ?_, ?_⟩
  · rw [held, Option.map_map]
    cases f.held? h with
    | none => rfl
    | some c =>
      show Except.ok ((Interchange.embedded (c.mapLinks _)).filterMap id) = _
      rw [Interchange.embedded_rename, List.filterMap_map, Option.map_some, Option.getD_some,
        List.map_filterMap]
      rfl
  · intro z hz z' hz' same
    exact t.inj (inside z hz) (inside z' hz') same
  · show Interchange.recipe g (name y) = (Interchange.recipe f y).rename name
    rw [Interchange.recipe, hh', Interchange.recipe, hh]
    dsimp only
    rw [held, kind, t.trailer_eq hy]
    cases f.held? h with
    | none =>
      dsimp only [Option.map_none]
      rw [Recipe.rename_bind, ← Interchange.ofBare_rename]
      rfl
    | some c =>
      dsimp only [Option.map_some]
      rw [Recipe.rename_bind, Interchange.ofContents_rename]
      rfl

/-- **The record of the tree is the same.** -/
theorem record_eq : g.record (some (name x)) = f.record (some x) := by
  rw [Forest.record_eq, Forest.record_eq]
  have follows := Interchange.follows f
  refine follows.answer_eq (Interchange.follows g) (Interchange.thorough f)
    (Interchange.thorough g) hf hg (t.height hf hg hx) fun records records' h h' => ?_
  have closed (y : NodeIndex) (hy : y ∈ f.preorder (some x)) (z : NodeIndex)
      (hz : z ∈ (Interchange.assembly f).below y) : z ∈ f.preorder (some x) :=
    hf.mem_preorder_of_below hx hy ((follows y).subset (List.mem_map_of_mem hz))
  exact h.eq_of_mirrors h' (Interchange.thorough f) (follows.reach_lt hf.acyclic) closed
    (fun y hy => t.mirrors_record hf hx hy) (hf.mem_preorder_self hx)

/-! ## Outlines -/

omit hg in
/-- Every node of the tree is as far below the first as it was. -/
theorem exists_depth {y : NodeIndex} (hg : g.Linked) (hy : y ∈ f.preorder (some x)) :
    ∃ n, f.depth (some y) = f.depth (some x) + n ∧
      g.depth (some (name y)) = g.depth (some (name x)) + n := by
  have way := (hf.mem_preorder_iff hx).mp hy
  clear hy
  induction way with
  | refl => exact ⟨0, rfl, rfl⟩
  | @tail y z way step ih =>
    obtain ⟨n, hn, hn'⟩ := ih
    have hy := (hf.mem_preorder_iff hx).mpr way
    have step' : name z ∈ g.below (name y) := t.below hy ▸ List.mem_map_of_mem step
    refine ⟨n + 1, ?_, ?_⟩
    · rw [depth_of_parent hf.grounded hf.parents hf.intact (hf.parent_of_mem step), hn]
      rfl
    · rw [depth_of_parent hg.grounded hg.parents hg.intact (hg.parent_of_mem step'), hn']
      rfl

/-- **The outline of the tree is the same.** -/
theorem outline_eq : g.outline (some (name x)) = f.outline (some x) := by
  rw [hf.outline_some hx, hg.outline_some (t.root hf hx), t.preorder hf hg hx, List.foldl_map]
  refine List.foldl_ext _ _ _ fun text y hy => congrArg (text ++ ·) ?_
  obtain ⟨h, h', hh, hh', kind, pos, len⟩ := t.header hy
  obtain ⟨n, hn, hn'⟩ := t.exists_depth hf hx hg hy
  rw [Outline.lineAt, hh', Outline.lineAt, hh, hn, hn', Nat.add_sub_cancel_left,
    Nat.add_sub_cancel_left]
  simp only [Outline.line, kind, pos, len]

end Alike

/-! ## Shapes -/

/-- **Two trees that are alike to a third have the same shape.** -/
theorem Alike.sameShape_eq {g' : Forest} {name' : NodeIndex → NodeIndex} (hf : f.Linked)
    (hg : g.Linked) (hg' : g'.Linked) (hx : f.contains (some x)) (t : f.Alike g name x)
    (t' : f.Alike g' name' x) :
    g.sameShape (some (name x)) g' (some (name' x)) = true := by
  have shape := (hf.sameShape_iff hg x (name x)).mp ((t.same hf hx).sameShape_eq hf hg)
  have shape' := (hf.sameShape_iff hg' x (name' x)).mp ((t'.same hf hx).sameShape_eq hf hg')
  exact (hg.sameShape_iff hg' _ _).mpr (shape.symm.trans shape')

/-! ## Trees that stay -/

/-- Some nodes are in another forest what they were, but for their parents. -/
structure Keeps (f g : Forest) (nodes : List NodeIndex) : Prop where
  header? : ∀ x ∈ nodes, g.header? (some x) = f.header? (some x)
  contents? : ∀ x ∈ nodes, g.contents? (some x) = f.contents? (some x)
  record? : ∀ x ∈ nodes, (g.record? (some x)).map (·.withParent none) =
    (f.record? (some x)).map (·.withParent none)

/-- A tree whose nodes are kept is alike to itself. -/
theorem Keeps.alike (hf : f.Linked) {x : NodeIndex} (t : f.Keeps g (f.preorder (some x))) :
    f.Alike g id x where
  header := by
    intro y hy
    obtain ⟨h, hh⟩ := exists_header?_of_contains (hf.contains_of_mem_preorder hy)
    exact ⟨h, h, hh, (t.header? y hy).trans hh, rfl, rfl, rfl⟩
  contents? := by
    intro y hy
    have same : (fun c : Contents => c.mapLinks (·.map id)) = id := by
      funext c
      simp only [Contents.mapLinks, Option.map_id, List.map_id_fun]
      exact c.rewire_id
    rw [same, Option.map_id]
    exact t.contents? y hy
  record? := fun hy => t.record? _ hy
  inj _ _ same := same

/-! ## Clones -/

variable {source : NodeIndex} {parent : Link}

/-- A clone keeps what was there. -/
theorem Cloned.keeps (t : f.Cloned g source parent) {nodes : List NodeIndex}
    (known : ∀ y ∈ nodes, f.contains (some y)) : f.Keeps g nodes where
  header? y hy := t.header?_old (known y hy)
  contents? y hy := t.contents?_old (known y hy)
  record? y hy := congrArg (Option.map _) (t.record?_old (known y hy))

/-- What was there before a clone is alike to itself. -/
theorem Cloned.alike_old (hf : f.Linked) (t : f.Cloned g source parent) :
    f.Alike g id x :=
  Keeps.alike hf (t.keeps fun _ hy => hf.contains_of_mem_preorder hy)

/-- **A clone is alike to its source.** -/
theorem Cloned.alike_copy (t : f.Cloned g source parent) :
    f.Alike g (f.copyOf source) source where
  header := by
    intro y hy
    obtain ⟨h, entry, hh, hcopy⟩ := t.header? hy
    exact ⟨h, _, hh, hcopy, rfl, rfl, rfl⟩
  contents? := t.contents?
  record? := by
    intro y hy
    rw [t.record? hy, Option.map_map]
    rfl
  inj hy _ same := copyOf_inj hy same

end Forest

/-- **A clone cannot be told from its source**: in the forest that has both, they have the same text
at every depth and with every option, or the same error, the same record or the same error, the same
outline and the same shape. -/
theorem Reached.clone_indistinguishable {f : Forest} {loose : List NodeIndex}
    (h : Reached f loose) (x parent : Link) {copy : NodeIndex} {g : Forest}
    (run : (Editing.clone x parent).run f = .ok copy g) :
    (∀ o depth, g.print o (some copy) depth = g.print o x depth) ∧
      g.record (some copy) = g.record x ∧ g.outline (some copy) = g.outline x ∧
      g.sameShape x g (some copy) = true := by
  have hf := h.tended.linked
  obtain ⟨source, rfl, clonable, rfl, t⟩ := hf.cloned_of_run_ok run
  have hg := hf.of_cloned t clonable
  have old := t.alike_old (x := source) hf
  have new := t.alike_copy
  have root := hf.copyOf_source clonable.node
  rw [← root]
  refine ⟨fun o depth => ?_, ?_, ?_, ?_⟩
  · exact (new.print_eq hf hg clonable.node o depth).trans
      (old.print_eq hf hg clonable.node o depth).symm
  · exact (new.record_eq hf hg clonable.node).trans (old.record_eq hf hg clonable.node).symm
  · exact (new.outline_eq hf hg clonable.node).trans (old.outline_eq hf hg clonable.node).symm
  · exact Forest.Alike.sameShape_eq hf hg hg clonable.node old new

/-- The loop without a body is cloned under its own condition. -/
theorem clone_indistinguishable_nested : ∃ copy g,
    (Editing.clone (some 1) (some 2)).run (Command.perform Command.nested).1 = .ok copy g ∧
      (∀ o depth, g.print o (some copy) depth = g.print o (some 1) depth) ∧
      g.record (some copy) = g.record (some 1) ∧ g.outline (some copy) = g.outline (some 1) ∧
      g.sameShape (some 1) g (some copy) = true := by
  have reached := reached_perform Command.nested
  have clonable : (Command.perform Command.nested).1.Clonable (some 1) (some 2) :=
    ⟨by decide +kernel, .inr (by decide +kernel), by decide +kernel⟩
  obtain ⟨g, run, -⟩ := reached.tended.linked.run_clone clonable
  exact ⟨_, g, run, Reached.clone_indistinguishable reached (some 1) (some 2) run⟩

end SyntaxForest
