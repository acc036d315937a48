import SyntaxForest.Proofs.Demands

/-!
# Taking nodes out of their places

Every edit of children begins by releasing the nodes that it is about to store.  `Released` says
what has become of a forest when some nodes have been released one after the other: they are gone
from all slots and lists and have no parent, and nothing else is different.

What is load-bearing is that a release cannot fail in a linked forest (`run_release`).  It looks for
the node at its parent only, and it relies on finding there whatever is to be erased; that nobody
else stores the node is `Linked.parent_of_mem`.  The parent of a clone may not store the clone, and
then there is nothing to erase.
-/

namespace SyntaxForest

namespace NodeRecord

/-- The record of a node under another parent. -/
def withParent (r : NodeRecord) (parent : Link) : NodeRecord := { r with parent }

@[simp] theorem parent_withParent (r : NodeRecord) (p : Link) : (r.withParent p).parent = p := rfl

@[simp] theorem withParent_withParent (r : NodeRecord) (p q : Link) :
    (r.withParent p).withParent q = r.withParent q := rfl

@[simp] theorem withParent_parent (r : NodeRecord) : r.withParent r.parent = r := rfl

end NodeRecord

namespace Editing

variable {α : Type} {f : Forest}

/-- A loop of plain updates performs them from first to last. -/
theorem run_forM_modify (update : α → Forest → Forest) (xs : List α) :
    (xs.forM fun x => (modify (update x) : Editing Unit)).run f =
      .ok () (xs.foldl (fun f x => update x f) f) := by
  induction xs generalizing f with
  | nil => rfl
  | cons x xs ih =>
    show ((modify (update x) : Editing Unit) >>= fun _ => xs.forM _).run f = _
    rw [EStateM.run_bind, EStateM.run_modify]
    exact ih

/-- A loop that leaves some entries alone is the loop over the others. -/
theorem forM_ite (p : α → Prop) [DecidablePred p] (act : α → Editing Unit) (xs : List α) :
    (xs.forM fun x => if p x then act x else pure ()) = (xs.filter p).forM act := by
  induction xs with
  | nil => rfl
  | cons x xs ih =>
    show ((if p x then act x else pure ()) >>= fun _ => xs.forM _) = _
    rw [ih]
    by_cases hx : p x
    · have kept : (x :: xs).filter p = x :: xs.filter p :=
        List.filter_cons_of_pos (decide_eq_true hx)
      rw [if_pos hx, kept]
      rfl
    · have dropped : (x :: xs).filter p = xs.filter p :=
        List.filter_cons_of_neg (by simpa using hx)
      rw [if_neg hx, dropped, pure_bind]

end Editing

namespace Forest

variable {f g : Forest}

/-- What a forest is after some of its nodes have been released. -/
structure Released (f g : Forest) (gone : List NodeIndex) : Prop where
  headers : g.headers = f.headers
  intact : g.Intact
  contents : ∀ y, g.contents? y = (f.contents? y).map (·.without gone)
  record : ∀ y, g.record? y = (f.record? y).map fun r =>
    if y ∈ gone.map some then r.withParent none else r

/-- Without a release everything is as it was. -/
theorem Released.refl (hf : f.Intact) : Released f f [] where
  headers := rfl
  intact := hf
  contents y := by
    cases f.contents? y with
    | none => rfl
    | some c => rw [Option.map_some, Contents.without_eq_self fun x hx => absurd hx (by simp)]
  record y := by
    cases f.record? y <;> simp

/-- A node that has been released has no parent, and the other parents are as before. -/
theorem Released.parent {gone : List NodeIndex} (h : Released f g gone) (y : Link) :
    g.parent y = if y ∈ gone.map some then none else f.parent y := by
  unfold Forest.parent
  rw [h.record]
  cases f.record? y with
  | none => simp
  | some r =>
    by_cases hy : y ∈ gone.map some
    · simp only [Option.map_some, Option.bind_some, hy, if_true, NodeRecord.parent_withParent]
    · simp only [Option.map_some, Option.bind_some, hy, if_false]

/-- The last step of a release: if the node stands nowhere any more but perhaps in the contents of
one owner, erasing it there and forgetting its parent releases it. -/
theorem Released.snoc {gone : List NodeIndex} {x : NodeIndex} (h : Released f g gone) {g' : Forest}
    (headers : g'.headers = g.headers) (intact : g'.Intact)
    (contents : ∀ y, g'.contents? y = (g.contents? y).map (·.without [x]))
    (record : ∀ y, g'.record? y = (g.record? y).map fun r =>
      if y = some x then r.withParent none else r) : Released f g' (gone ++ [x]) where
  headers := headers.trans h.headers
  intact := intact
  contents y := by
    rw [contents, h.contents, Option.map_map]
    exact Option.map_congr fun c _ => Contents.without_without gone [x] c
  record y := by
    rw [record, h.record, Option.map_map]
    apply Option.map_congr
    intro r _
    rw [Function.comp_apply, List.map_append, List.map_cons, List.map_nil]
    by_cases hy : y = some x
    · subst hy
      rw [if_pos rfl, if_pos (List.mem_append_right _ (List.mem_singleton_self _))]
      split <;> rfl
    · rw [if_neg hy]
      simp only [List.mem_append, List.mem_singleton, hy, or_false]

/-- Another parent shows in the record of its node and nowhere else. -/
theorem record?_setParent (f : Forest) (x p y : Link) :
    (f.setParent x p).record? y =
      (f.record? y).map fun r => if y = x then r.withParent p else r := by
  rw [setParent, record?_modifyRecord]
  by_cases hy : y = x
  · simp only [hy, if_true]
    rfl
  · rw [if_neg (Ne.symm hy)]
    cases f.record? y <;> simp only [hy, if_false, Option.map_none, Option.map_some]

/-- Only the parent of a node can still store it. -/
theorem Linked.without_eq_self (hf : f.Linked) {gone : List NodeIndex} (h : Released f g gone)
    {x : NodeIndex} {y : Link} {c : Contents} (hc : g.contents? y = some c)
    (hy : g.parent (some x) ≠ y) : c.without [x] = c := by
  rw [h.contents] at hc
  obtain ⟨old, hold, rfl⟩ := Option.map_eq_some_iff.mp hc
  apply Contents.without_eq_self
  intro z hz hmem
  obtain rfl := List.mem_singleton.mp hz
  rw [← Contents.mem_children, Contents.children_without, List.mem_filter,
    decide_eq_true_iff, Contents.mem_children] at hmem
  obtain ⟨hmem, hgone⟩ := hmem
  have held : f.parent (some z) = y := hf.parent_of_mem (mem_children_iff.mpr ⟨old, hold, hmem⟩)
  rw [h.parent, if_neg (by simpa using hgone)] at hy
  exact hy held

/-- A node without a parent is released as it is. -/
theorem Linked.released_of_parent_eq_none (hf : f.Linked) {gone : List NodeIndex}
    (h : Released f g gone) {x : NodeIndex} (hx : g.parent (some x) = none) :
    Released f g (gone ++ [x]) := by
  refine h.snoc rfl h.intact (fun y => ?_) fun y => ?_
  · cases hc : g.contents? y with
    | none => rfl
    | some c =>
      have nowhere : g.parent (some x) ≠ y := by
        rintro rfl
        rw [hx] at hc
        exact absurd hc (by simp [contents?, header?])
      rw [Option.map_some, hf.without_eq_self h hc nowhere]
  · cases hr : g.record? y with
    | none => rfl
    | some r =>
      rw [Option.map_some]
      by_cases hy : y = some x
      · have orphan : r.parent = none := by
          rw [Forest.parent, ← hy, hr] at hx
          exact hx
        rw [if_pos hy, ← orphan, NodeRecord.withParent_parent]
      · rw [if_neg hy]

/-- Erased by its parent and without a parent, a node is released. -/
theorem Linked.released_erase (hf : f.Linked) {gone : List NodeIndex} (h : Released f g gone)
    {x owner : NodeIndex} {c : Contents} (hx : g.parent (some x) = some owner)
    (hc : g.contents? (some owner) = some c) :
    Released f ((g.setContents (some owner) (c.erase (some x))).setParent (some x) none)
      (gone ++ [x]) := by
  refine h.snoc ?_ ((h.intact.setContents ..).modifyRecord ..) (fun y => ?_) fun y => ?_
  · rw [setParent, headers_modifyRecord, headers_setContents]
  · rw [setParent, contents?_modifyRecord,
      contents?_setContents h.intact hc (Contents.kind_erase ..)]
    by_cases hy : y = some owner
    · rw [if_pos hy, hy, hc, Option.map_some, Contents.erase_eq_without]
    · rw [if_neg hy]
      cases hc' : g.contents? y with
      | none => rfl
      | some c' =>
        have elsewhere : g.parent (some x) ≠ y := by
          rw [hx]
          exact Ne.symm hy
        rw [Option.map_some, hf.without_eq_self h hc' elsewhere]
  · rw [record?_setParent, record?_setContents]

/-- A node whose parent holds nothing is released when it has no parent any more. -/
theorem Linked.released_bare (hf : f.Linked) {gone : List NodeIndex} (h : Released f g gone)
    {x owner : NodeIndex} (hx : g.parent (some x) = some owner)
    (hc : g.contents? (some owner) = none) :
    Released f (g.setParent (some x) none) (gone ++ [x]) := by
  refine h.snoc (headers_modifyRecord ..) (h.intact.modifyRecord ..) (fun y => ?_)
    fun y => record?_setParent ..
  rw [setParent, contents?_modifyRecord]
  cases hc' : g.contents? y with
  | none => rfl
  | some c =>
    have elsewhere : g.parent (some x) ≠ y := by
      rintro rfl
      rw [hx, hc] at hc'
      cases hc'
    rw [Option.map_some, hf.without_eq_self h hc' elsewhere]

/-- **A release succeeds, and releases the node.** -/
theorem Linked.run_release (hf : f.Linked) {gone : List NodeIndex} (h : Released f g gone)
    (x : NodeIndex) :
    ∃ g', (Editing.release (some x)).run g = .ok () g' ∧ Released f g' (gone ++ [x]) := by
  unfold Editing.release
  simp only [EStateM.run_bind, EStateM.run_get]
  cases howner : g.parent (some x) with
  | none => exact ⟨g, rfl, hf.released_of_parent_eq_none h howner⟩
  | some owner =>
    have hparent : f.parent (some x) = some owner := by
      rw [h.parent] at howner
      split at howner
      · cases howner
      · exact howner
    obtain ⟨header, hheader⟩ := exists_header?_of_contains (hf.parents hparent)
    have hheader' : g.header? (some owner) = some header := by
      rw [← hheader]
      simp only [header?, h.headers]
    have asked : g.header (some owner) = .ok header := header_eq_ok_iff.mpr hheader'
    simp only [EStateM.run_bind, Editing.run_ask, asked, EStateM.run_get]
    cases hc : g.contents? (some owner) with
    | none =>
      -- only a node of a bare kind holds nothing, and such a node is a leaf
      have leaf : header.kind.isLeaf = true := by
        have bare := h.intact.isSome_contents? hheader'
        rw [hc] at bare
        cases hkind : header.kind <;> simp_all [Kind.isBare, Kind.isLeaf]
      refine ⟨_, ?_, hf.released_bare h howner hc⟩
      simp only [leaf, Bool.not_true, Bool.false_eq_true, if_false, EStateM.run_modify]
    | some c =>
      refine ⟨_, ?_, hf.released_erase h howner hc⟩
      simp only [EStateM.run_bind, EStateM.run_modify]

/-- **Children can be released one after the other.**  To release no child is to do nothing. -/
theorem Linked.run_release_all (hf : f.Linked) {gone : List NodeIndex} (h : Released f g gone)
    (children : List Link) :
    ∃ g', (children.forM Editing.release).run g = .ok () g' ∧
      Released f g' (gone ++ children.filterMap id) := by
  induction children generalizing g gone with
  | nil => exact ⟨g, rfl, by simpa using h⟩
  | cons child children ih =>
    have step : ∃ g₁, (Editing.release child).run g = .ok () g₁ ∧
        Released f g₁ (gone ++ child.toList) := by
      cases child with
      | none => exact ⟨g, rfl, by simpa using h⟩
      | some x => exact hf.run_release h x
    obtain ⟨g₁, hrun₁, h₁⟩ := step
    obtain ⟨g', hrun', h'⟩ := ih h₁
    refine ⟨g', ?_, ?_⟩
    · show (Editing.release child >>= fun _ => children.forM Editing.release).run g = _
      rw [EStateM.run_bind, hrun₁]
      exact hrun'
    · rw [List.append_assoc] at h'
      cases child <;> simpa using h'

end Forest

end SyntaxForest
