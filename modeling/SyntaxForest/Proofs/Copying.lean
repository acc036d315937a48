import Mathlib.Data.List.Nodup
import SyntaxForest.Forest.Clone
import SyntaxForest.Proofs.Release

/-!
# Copying a tree

Copying goes in two passes over one order, the pre-order of the source.  The first pass adds a node
for each node of the source, the second renames the children of what was added.  `Forest.copyOf`
says beforehand where the copy of a node will be: behind all nodes that were there, at the place
that the node has in the order.

* `Copied` is the invariant of the first pass.  It speaks of the part of the order that has been
  copied; `run_copyTree` carries it through the recursion, with the rest of the order still to come.
* `contents?_relinkFrom` is the second pass, on the contents of any node.

What is load-bearing is that the order lists no node twice: the place of a copy is known before it
is made, and a copy is renamed once.
-/

namespace SyntaxForest

namespace Forest

/-- The node that will be the copy of a node in the tree of a source. -/
def copyOf (f : Forest) (source x : NodeIndex) : NodeIndex :=
  f.size + (f.preorder (some source)).idxOf x

/-- The parent of the copy of a node: the copy of its parent, or what the whole copy is put
under. -/
def adopter (f : Forest) (source : NodeIndex) (parent : Link) (x : NodeIndex) : Link :=
  if x = source then parent else (f.parent (some x)).map (f.copyOf source)

theorem adopter_source (f : Forest) (source : NodeIndex) (parent : Link) :
    f.adopter source parent source = parent := if_pos rfl

/-- What has become of a forest when some nodes of a tree have been copied, in this order. -/
structure Copied (f g : Forest) (source : NodeIndex) (parent : Link) (done : List NodeIndex)
    (copies : Copies) : Prop where
  intact : g.Intact
  size : g.size = f.size + done.length
  header?_old : ∀ {y}, f.contains y → g.header? y = f.header? y
  contents?_old : ∀ {y}, f.contains y → g.contents? y = f.contents? y
  record?_old : ∀ {y}, f.contains y → g.record? y = f.record? y
  header? : ∀ {x}, x ∈ done → ∃ h entry, f.header? (some x) = some h ∧
    g.header? (some (f.copyOf source x)) = some { h with entry }
  contents? : ∀ {x}, x ∈ done → g.contents? (some (f.copyOf source x)) = f.contents? (some x)
  record? : ∀ {x}, x ∈ done → g.record? (some (f.copyOf source x)) =
    (f.record? (some x)).map (·.withParent (f.adopter source parent x))
  copies : ∀ x, copies[x]? = if x ∈ done then some (f.copyOf source x) else none

variable {f g : Forest} {source : NodeIndex} {parent : Link}

/-- Different nodes of the tree have different copies. -/
theorem copyOf_inj {x y : NodeIndex} (hx : x ∈ f.preorder (some source))
    (h : f.copyOf source x = f.copyOf source y) : x = y :=
  (List.idxOf_inj hx).mp (Nat.add_left_cancel h)

/-- Before the first copy everything is as it was. -/
theorem Copied.refl (hf : f.Intact) (source : NodeIndex) (parent : Link) :
    Copied f f source parent [] ∅ where
  intact := hf
  size := rfl
  header?_old := fun _ => rfl
  contents?_old := fun _ => rfl
  record?_old := fun _ => rfl
  header? := by simp
  contents? := by simp
  record? := by simp
  copies := by simp

/-! ## One node -/

/-- To copy a node is to add one with the same contents and, but for the parent, the same
record. -/
theorem Intact.run_copyNode (hg : g.Intact) {x : NodeIndex} {h : Header} {r : NodeRecord}
    (hh : g.header? (some x) = some h) (hr : g.record? (some x) = some r) (p : Link) :
    (Editing.copyNode x p).run g =
      .ok g.size (g.push h.kind h.pos h.len (g.contents? (some x)) (r.withParent p)) := by
  have asked : g.header (some x) = .ok h := header_eq_ok_iff.mpr hh
  have held : g.contents? (some x) = g.held? h := by rw [Forest.contents?, hh, Option.bind_some]
  have filled := hg.isSome_contents? hh
  unfold Editing.copyNode Editing.copyContents
  simp only [EStateM.run_bind, Editing.run_ask, asked]
  cases hbare : h.kind.isBare with
  | true =>
    rw [hbare, Bool.not_true, Option.isSome_eq_false_iff, Option.isNone_iff_eq_none] at filled
    simp only [if_true, EStateM.run_pure, EStateM.run_get, EStateM.run_bind, hr,
      EStateM.run_modify, filled]
    rfl
  | false =>
    rw [hbare, Bool.not_false] at filled
    obtain ⟨c, hc⟩ := Option.isSome_iff_exists.mp filled
    rw [held] at hc
    have hr' : ({ g with pools := g.pools.push c } : Forest).record? (some x) = some r := hr
    simp only [Bool.false_eq_true, if_false, EStateM.run_bind, EStateM.run_get, hc,
      EStateM.run_modify, EStateM.run_pure, hr', held]
    rfl

/-- The step of the first pass: a node whose place has come is copied there. -/
theorem Copied.snoc (hf : f.Intact) {done : List NodeIndex} {copies : Copies}
    (t : Copied f g source parent done copies) {x : NodeIndex} (hx : f.contains (some x))
    (place : f.copyOf source x = f.size + done.length) :
    ∃ g', (Editing.copyNode x (f.adopter source parent x)).run g = .ok (f.copyOf source x) g' ∧
      Copied f g' source parent (done ++ [x]) (copies.insert x (f.copyOf source x)) := by
  obtain ⟨h, hh⟩ := exists_header?_of_contains hx
  have hh' := (t.header?_old hx).trans hh
  obtain ⟨r, hr⟩ := Option.isSome_iff_exists.mp (hf.isSome_record?.trans hx)
  have hr' := (t.record?_old hx).trans hr
  have run := t.intact.run_copyNode hh' hr' (f.adopter source parent x)
  have fresh : f.copyOf source x = g.size := by rw [place, t.size]
  rw [← fresh, t.contents?_old hx] at run
  have kinds : ∀ c ∈ f.contents? (some x), c.kind = h.kind := by
    intro c hc
    have same := (kind?_of_contents? hc).symm.trans (kind?_of_header? hh)
    exact Option.some.inj same
  have bare : f.contents? (some x) = none ↔ h.kind.isBare := by
    rw [← Option.not_isSome_iff_eq_none, hf.isSome_contents? hh]
    cases h.kind.isBare <;> simp
  -- every node so far stands before the new one
  have old {y : Link} (hy : f.contains y) : y ≠ some g.size := by
    apply ne_size_of_contains
    rw [contains, t.header?_old hy]
    exact hy
  have copied {y : NodeIndex} (hy : y ∈ done) : some (f.copyOf source y) ≠ some g.size := by
    obtain ⟨h', entry, -, hcopy⟩ := t.header? hy
    exact ne_size_of_contains (contains_of_header? hcopy)
  refine ⟨_, run, ?_⟩
  constructor
  · exact t.intact.push _ _ _ kinds bare
  · rw [size_push, t.size, List.length_append, List.length_singleton, Nat.add_assoc]
  · intro y hy
    rw [header?_push, if_neg (old hy), t.header?_old hy]
  · intro y hy
    rw [contents?_push _ _ _ t.intact kinds, if_neg (old hy), t.contents?_old hy]
  · intro y hy
    rw [record?_push _ _ _ _ _ t.intact, if_neg (old hy), t.record?_old hy]
  · intro y hy
    rcases List.mem_append.mp hy with hy | hy
    · rw [header?_push, if_neg (copied hy)]
      exact t.header? hy
    · obtain rfl := List.mem_singleton.mp hy
      exact ⟨h, _, hh, by rw [header?_push, if_pos (congrArg some fresh)]⟩
  · intro y hy
    rw [contents?_push _ _ _ t.intact kinds]
    rcases List.mem_append.mp hy with hy | hy
    · rw [if_neg (copied hy), t.contents? hy]
    · obtain rfl := List.mem_singleton.mp hy
      rw [if_pos (congrArg some fresh)]
  · intro y hy
    rw [record?_push _ _ _ _ _ t.intact]
    rcases List.mem_append.mp hy with hy | hy
    · rw [if_neg (copied hy), t.record? hy]
    · obtain rfl := List.mem_singleton.mp hy
      rw [if_pos (congrArg some fresh), hr]
      rfl
  · intro y
    rw [Std.TreeMap.getElem?_insert, t.copies]
    by_cases hxy : x = y
    · subst hxy
      simp
    · simp [hxy, Ne.symm hxy]

/-! ## The first pass -/

variable (hf : f.Linked)
include hf

/-- In the order of a tree without repetitions, the place of a node is the number of nodes before
it. -/
theorem Linked.copyOf_eq {done rest : List NodeIndex} {x : NodeIndex}
    (horder : f.preorder (some source) = done ++ x :: rest) :
    f.copyOf source x = f.size + done.length := by
  have nodup := hf.nodup_preorder (some source)
  rw [horder, List.nodup_append'] at nodup
  have first : x ∉ done := fun hx => nodup.2.2 hx List.mem_cons_self
  rw [copyOf, horder, List.idxOf_append_of_notMem first, List.idxOf_cons_self, Nat.add_zero]

/-- The source does not lie below a node of its tree. -/
theorem Linked.ne_source {x y : NodeIndex} (hsource : f.contains (some source))
    (hx : x ∈ f.preorder (some source)) (hy : y ∈ f.below x) : y ≠ source := by
  rintro rfl
  obtain ⟨n, hn⟩ := hf.iterate_of_path ((hf.mem_preorder_iff hsource).mp hx)
  apply hf.grounded.iterate_ne y n
  rw [Function.iterate_succ_apply, hf.parent_of_mem hy, hn]

/-- Below a node of the tree, the copy of the node is the parent of copies. -/
theorem Linked.adopter_of_mem {x y : NodeIndex} (hsource : f.contains (some source))
    (hx : x ∈ f.preorder (some source)) (hy : y ∈ f.below x) :
    f.adopter source parent y = some (f.copyOf source x) := by
  have above : f.parent (some y) = some x := hf.parent_of_mem hy
  rw [adopter, if_neg (hf.ne_source hsource hx hy), above, Option.map_some]

/-- **The first pass copies the tree in pre-order.**  The induction is on the room; what has been
copied before and what is to come are the two ends of the order. -/
theorem Linked.run_copyTree (hsource : f.contains (some source)) {room : Nat} {x : NodeIndex}
    {done rest : List NodeIndex} {copies : Copies} (t : Copied f g source parent done copies)
    (horder : f.preorder (some source) =
      done ++ Traversal.unfolding f.below room x ++ rest) :
    ∃ g' copies', (Editing.copyTree room (f.adopter source parent x) copies x).run g =
        .ok copies' g' ∧
      Copied f g' source parent (done ++ Traversal.unfolding f.below room x) copies' := by
  induction room generalizing x done rest g copies with
  | zero =>
    rw [Traversal.unfolding, List.append_assoc] at horder
    have listed : x ∈ f.preorder (some source) := by simp [horder]
    obtain ⟨g', run, t'⟩ := t.snoc hf.intact (hf.contains_of_mem_preorder listed)
      (hf.copyOf_eq horder)
    refine ⟨g', _, ?_, t'⟩
    unfold Editing.copyTree
    simp only [EStateM.run_bind, run, EStateM.run_pure]
  | succ room ih =>
    rw [Traversal.unfolding, List.append_assoc, List.cons_append] at horder
    have listed : x ∈ f.preorder (some source) := by simp [horder]
    obtain ⟨g₁, run₁, t₁⟩ := t.snoc hf.intact (hf.contains_of_mem_preorder listed)
      (hf.copyOf_eq horder)
    -- the children are copied one after the other, each behind what was copied before
    have all (ys : List NodeIndex) (hys : ys ⊆ f.below x) {g : Forest} {copies : Copies}
        {done rest : List NodeIndex} (t : Copied f g source parent done copies)
        (horder : f.preorder (some source) =
          done ++ ys.flatMap (Traversal.unfolding f.below room) ++ rest) :
        ∃ g' copies', (ys.foldlM (Editing.copyTree room (some (f.copyOf source x))) copies).run g =
            .ok copies' g' ∧
          Copied f g' source parent (done ++ ys.flatMap (Traversal.unfolding f.below room))
            copies' := by
      induction ys generalizing g copies done with
      | nil => exact ⟨g, copies, rfl, by simpa using t⟩
      | cons y ys ihys =>
        rw [List.flatMap_cons, ← List.append_assoc] at horder ⊢
        obtain ⟨g₁, copies₁, run₁, t₁⟩ := ih t (by rw [horder, List.append_assoc])
        obtain ⟨g₂, copies₂, run₂, t₂⟩ :=
          ihys (fun z hz => hys (List.mem_cons_of_mem y hz)) t₁ horder
        rw [hf.adopter_of_mem hsource listed (hys List.mem_cons_self)] at run₁
        refine ⟨g₂, copies₂, ?_, t₂⟩
        rw [List.foldlM_cons, EStateM.run_bind, run₁]
        exact run₂
    rw [← List.singleton_append, ← List.append_assoc] at horder
    obtain ⟨g₂, copies₂, run₂, t₂⟩ := all (f.below x) (List.Subset.refl _) t₁
      (horder.trans (by rw [List.append_assoc, List.append_assoc, List.append_assoc]))
    have below : g₁.below x = f.below x := by
      rw [Forest.below, children, t₁.contents?_old (hf.contains_of_mem_preorder listed)]
      rfl
    refine ⟨g₂, copies₂, ?_, ?_⟩
    · unfold Editing.copyTree
      simp only [EStateM.run_bind, run₁, EStateM.run_get, below]
      exact run₂
    · rwa [List.append_assoc] at t₂

/-! ## The second pass -/

omit hf

/-- Renaming the children of a node shows there and nowhere else. -/
theorem contents?_relink (hg : g.Intact) (copies : Copies) (x : NodeIndex) (y : Link) :
    (g.relink copies x).contents? y = (g.contents? y).map fun c =>
      if y = some x then c.mapLinks (·.bind (copies[·]?)) else c := by
  unfold relink
  cases hc : g.contents? (some x) with
  | none =>
    cases hy : g.contents? y with
    | none => rfl
    | some c =>
      have hne : y ≠ some x := by
        rintro rfl
        rw [hc] at hy
        cases hy
      simp only [hne, if_false, Option.map_some]
  | some c =>
    simp only []
    rw [contents?_setContents hg hc (Contents.kind_mapLinks ..)]
    by_cases hy : y = some x
    · rw [if_pos hy, hy, hc, Option.map_some, if_pos rfl]
    · simp only [hy, if_false, Option.map_id']

theorem headers_relink (copies : Copies) (x : NodeIndex) :
    (g.relink copies x).headers = g.headers := by
  unfold relink
  split
  · exact headers_setContents ..
  · rfl

theorem records_relink (copies : Copies) (x : NodeIndex) :
    (g.relink copies x).records = g.records := by
  unfold relink
  split
  · exact records_setContents ..
  · rfl

theorem Intact.relink (hg : g.Intact) (copies : Copies) (x : NodeIndex) :
    (g.relink copies x).Intact := by
  unfold Forest.relink
  split
  · exact hg.setContents ..
  · exact hg

/-- **The second pass renames the children of some nodes, and changes nothing else.** -/
theorem relink_all (hg : g.Intact) (copies : Copies) {xs : List NodeIndex} (nodup : xs.Nodup) :
    (xs.foldl (relink copies) g).Intact ∧
      (xs.foldl (relink copies) g).headers = g.headers ∧
      (xs.foldl (relink copies) g).records = g.records ∧
      ∀ y, (xs.foldl (relink copies) g).contents? y = (g.contents? y).map fun c =>
        if y ∈ xs.map some then c.mapLinks (·.bind (copies[·]?)) else c := by
  induction xs generalizing g with
  | nil => simpa using hg
  | cons x xs ih =>
    obtain ⟨apart, nodup⟩ := List.nodup_cons.mp nodup
    obtain ⟨intact, headers, records, contents⟩ := ih (hg.relink copies x) nodup
    refine ⟨intact, headers.trans (headers_relink ..), records.trans (records_relink ..), ?_⟩
    intro y
    rw [List.foldl_cons, contents, contents?_relink hg, Option.map_map]
    apply Option.map_congr
    intro c _
    rw [Function.comp_apply, List.map_cons]
    by_cases hy : y = some x
    · have later : y ∉ xs.map some := by
        rw [hy, List.mem_map_of_injective fun _ _ => Option.some.inj]
        exact apart
      rw [if_neg later, if_pos hy, if_pos (List.mem_cons.mpr (.inl hy))]
    · simp only [hy, if_false, List.mem_cons, false_or]

end Forest

end SyntaxForest
