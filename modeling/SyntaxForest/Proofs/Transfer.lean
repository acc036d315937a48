import SyntaxForest.Proofs.Release

/-!
# What an edit of children does

A legal edit of a part succeeds, and this module says with what result.  `Edit.Transfer` describes
it node by node, in terms of the forest as it was: the nodes that are passed are gone from all
slots and lists; the part of the edit holds what it should; the nodes that were passed have the
node of the edit as parent, and those that the part has lost have none.

The description covers all three edits of children at once.  Where it differs from the program is
in what it calls *lost*: the program compares what the part holds after the release with what it is
to hold, the description what the part held before the edit.  In a linked forest the two are the
same (`Linked.transfer_of_place`), because whoever stands in the part has its node as parent.

`Linked.of_transfer` is the step of the invariant: a legal edit leads from linked forests to linked
forests.
-/

namespace SyntaxForest

namespace Forest

variable {f g : Forest}

/-! ## Several records -/

/-- Change the records of several nodes, one after the other. -/
def modifyRecords (f : Forest) (xs : List Link) (change : NodeRecord → NodeRecord) : Forest :=
  xs.foldl (fun f x => f.modifyRecord x change) f

variable (xs : List Link) (change : NodeRecord → NodeRecord)

@[simp] theorem headers_modifyRecords : (f.modifyRecords xs change).headers = f.headers := by
  induction xs generalizing f with
  | nil => rfl
  | cons x xs ih => exact ih.trans (headers_modifyRecord ..)

@[simp] theorem contents?_modifyRecords (y : Link) :
    (f.modifyRecords xs change).contents? y = f.contents? y := by
  induction xs generalizing f with
  | nil => rfl
  | cons x xs ih => exact ih.trans (contents?_modifyRecord ..)

theorem Intact.modifyRecords (hf : f.Intact) : (f.modifyRecords xs change).Intact := by
  induction xs generalizing f with
  | nil => exact hf
  | cons x xs ih => exact ih (hf.modifyRecord x change)

/-- A change that makes no difference the second time shows once at each of the nodes. -/
theorem record?_modifyRecords (again : ∀ r, change (change r) = change r) (y : Link) :
    (f.modifyRecords xs change).record? y =
      (f.record? y).map fun r => if y ∈ xs then change r else r := by
  induction xs generalizing f with
  | nil => simp [modifyRecords]
  | cons x xs ih =>
    show ((f.modifyRecord x change).modifyRecords xs change).record? y = _
    rw [ih, record?_modifyRecord]
    by_cases hxy : x = y
    · rw [if_pos hxy, Option.map_map]
      apply Option.map_congr
      intro r _
      rw [Function.comp_apply, again, ite_self, if_pos (List.mem_cons.mpr (.inl hxy.symm))]
    · rw [if_neg hxy]
      apply Option.map_congr
      intro r _
      simp only [List.mem_cons, Ne.symm hxy, false_or]

/-! ## Filling a part -/

/-- Fill a part of a node whose contents are given, let go of what the part loses, and become the
parent of what arrives. -/
def place (f : Forest) (node : Link) (part : Part) (c : Contents) (content arriving : List Link) :
    Forest :=
  ((f.setContents node (c.fill part content)).modifyRecords
    ((c.occupants part).filter (· ∉ content))
    fun r => if r.parent = node then r.withParent none else r).modifyRecords
    arriving (·.withParent node)

/-- The records after a part has been filled. -/
theorem record?_place (node : Link) (part : Part) (c : Contents) (content arriving : List Link)
    (y : Link) : (f.place node part c content arriving).record? y =
      (f.record? y).map fun r => r.withParent
        (if y ∈ arriving then node
        else if (y ∈ c.occupants part ∧ y ∉ content) ∧ r.parent = node then none
        else r.parent) := by
  rw [place, record?_modifyRecords, record?_modifyRecords, record?_setContents, Option.map_map]
  · apply Option.map_congr
    intro r _
    rw [Function.comp_apply]
    simp only [List.mem_filter, decide_eq_true_iff]
    by_cases arrives : y ∈ arriving
    · simp only [arrives, if_true]
      split
      · split <;> rfl
      · rfl
    · simp only [arrives, if_false]
      by_cases leaves : y ∈ c.occupants part ∧ y ∉ content
      · simp only [leaves, and_self, true_and, if_true, not_false_eq_true]
        split <;> rfl
      · simp only [leaves, false_and, if_false, NodeRecord.withParent_parent]
  · intro r
    by_cases h : r.parent = node
    · simp only [h, if_true, NodeRecord.withParent_withParent, ite_self]
    · simp only [h, if_false]
  · intro r
    rfl

end Forest

namespace Edit

variable {f g : Forest} {e : Edit} {part : Part}

/-- What the part is to hold, in terms of what it holds when the passed nodes have been released. -/
def contentIn (c : Contents) : Edit → List Link
  | .append slot _ child => c.occupants (.list slot) ++ [child]
  | e => e.children

/-- To release all children is to release the only one. -/
theorem run_release_single {child : Link} {α : Type} {rest : Unit → Editing α}
    (h : ([child].forM Editing.release).run f = .ok () g) :
    (Editing.release child >>= rest).run f = (rest ()).run g := by
  have once : [child].forM Editing.release = Editing.release child := bind_pure _
  rw [EStateM.run_bind, ← once, h]

/-- After the release, an edit of children fills its part. -/
theorem run_perform {c : Contents} (hpart : e.part? = some part)
    (hrelease : (e.children.forM Editing.release).run f = .ok () g)
    (hc : g.contents? e.node = some c) (admitted : part.owner.admits c.kind) :
    e.perform.run f = .ok () (g.place e.node part c (e.contentIn c) e.children) := by
  have asked : g.contentsOf part.owner e.node = .ok c :=
    Forest.contentsOf_eq_ok_iff.mpr ⟨hc, admitted⟩
  cases e with
  | setChild slot node child =>
    obtain rfl := Option.some.inj hpart
    have asked : g.contentsOf slot.owner node = .ok c := asked
    obtain ⟨old, hold⟩ : ∃ old, c.child? slot = some old := by
      rw [← Option.isSome_iff_exists, Contents.isSome_child?_iff]
      exact admitted
    have content : (setChild slot node child).contentIn c = [child] := rfl
    rw [perform, run_release_single hrelease]
    simp only [EStateM.run_bind, Editing.run_ask, asked, EStateM.run_modify, hold,
      Option.join_some]
    by_cases same : old = child
    · have stays : (c.occupants (.child slot)).filter (· ∉ [child]) = [] := by
        simp [Contents.occupants, hold, same]
      rw [Forest.place, content, stays, if_neg (not_not_intro same)]
      rfl
    · have leaves : (c.occupants (.child slot)).filter (· ∉ [child]) = [old] := by
        simp [Contents.occupants, hold, same]
      rw [Forest.place, content, leaves, if_pos same]
      rfl
  | setList slot node children =>
    obtain rfl := Option.some.inj hpart
    have asked : g.contentsOf slot.owner node = .ok c := asked
    have release : (children.forM Editing.release).run f = .ok () g := hrelease
    rw [perform]
    simp only [EStateM.run_bind, release, Editing.run_ask, asked, EStateM.run_modify]
    rw [Editing.forM_ite, Editing.run_forM_modify]
    simp only []
    rw [Editing.run_forM_modify]
    rfl
  | append slot node child =>
    obtain rfl := Option.some.inj hpart
    have asked : g.contentsOf slot.owner node = .ok c := asked
    have stays : (c.occupants (.list slot)).filter
        (· ∉ c.occupants (.list slot) ++ [child]) = [] := by
      apply List.filter_eq_nil_iff.mpr
      intro a ha
      simp [ha]
    rw [perform, run_release_single hrelease]
    simp only [EStateM.run_bind, Editing.run_ask, asked, EStateM.run_modify]
    rw [Forest.place, contentIn, stays]
    rfl
  | write _ _ | mark _ _ | setRange _ _ _ => cases hpart

/-- What becomes of a forest by an edit of one of its parts. -/
structure Transfer (f g : Forest) (e : Edit) (part : Part) : Prop where
  headers : g.headers = f.headers
  intact : g.Intact
  contents : ∀ y, g.contents? y = (f.contents? y).map fun c =>
    if y = e.node then (c.without e.moved).fill part (e.content f) else c.without e.moved
  record : ∀ y, g.record? y = (f.record? y).map fun r =>
    r.withParent
      (if y ∈ e.children then e.node
      else if y ∈ f.occupants e.node part ∧ y ∉ e.content f then none
      else r.parent)

/-- To append to what a list holds after the release is to append to what it held before, for what
is appended was not there. -/
theorem contentIn_without {c : Contents} (hpart : e.part? = some part) (legal : e.Legal f part)
    (hc : f.contents? e.node = some c) : e.contentIn (c.without e.moved) = e.content f := by
  cases e with
  | append slot node child =>
    have hc : f.contents? node = some c := hc
    have before : c.occupants (.list slot) = f.list node slot := by
      rw [← Forest.occupants_list, Forest.occupants_of_contents? hc]
    have absent : child ∉ f.list node slot := legal.absent slot node child rfl
    rw [contentIn, content, ← before]
    rw [← before] at absent
    refine congrArg (· ++ [child]) ?_
    rw [Contents.occupants] at absent
    rw [Contents.occupants, Contents.occupants, Contents.list?_without]
    cases hlist : c.list? slot with
    | none => rfl
    | some entries =>
      rw [hlist] at absent
      apply List.filter_eq_self.mpr
      intro a ha
      apply decide_eq_true
      intro hmoved
      cases child with
      | none => simp [moved, children] at hmoved
      | some x =>
        have same : a = some x := by simpa [moved, children] using hmoved
        exact absent (same ▸ ha)
  | setChild _ _ _ | setList _ _ _ => rfl
  | write _ _ | mark _ _ | setRange _ _ _ => cases hpart

/-- Among the nodes that stay, those that the part loses are those that stood in it, and their
parent was the node of the edit. -/
theorem record?_place_released (hf : f.Linked) (h : Forest.Released f g e.moved) {c : Contents}
    (hc : f.contents? e.node = some c) (y : Link) :
    (g.place e.node part (c.without e.moved) (e.content f) e.children).record? y =
      (f.record? y).map fun r => r.withParent
        (if y ∈ e.children then e.node
        else if y ∈ f.occupants e.node part ∧ y ∉ e.content f then none
        else r.parent) := by
  rw [Forest.record?_place, h.record]
  cases hr : f.record? y with
  | none => rfl
  | some r =>
    simp only [Option.map_some, Option.some.injEq]
    by_cases arrives : y ∈ e.children
    · simp only [arrives, if_true]
      split <;> rfl
    · cases y with
      | none => simp [Forest.record?] at hr
      | some x =>
        have occupants := Forest.occupants_of_contents? hc part
        have stays : x ∉ e.moved := fun hx => arrives (mem_moved.mp hx)
        have holder : some x ∈ c.occupants part → r.parent = e.node := by
          intro hx
          rw [← occupants] at hx
          have hmem : x ∈ f.children e.node := Forest.mem_children_of_occupant part hx
          have held := hf.parent_of_mem hmem
          rwa [Forest.parent, hr] at held
        have untouched : some x ∉ e.moved.map some := by simpa using stays
        have lost : (some x ∈ (c.without e.moved).occupants part ∧ some x ∉ e.content f) ∧
            r.parent = e.node ↔ some x ∈ c.occupants part ∧ some x ∉ e.content f := by
          rw [Contents.mem_occupants_without, and_iff_left stays]
          exact and_iff_left_of_imp fun leaves => holder leaves.1
        rw [if_neg arrives, if_neg arrives, if_neg untouched, if_congr lost rfl rfl, occupants]

/-- **After a release, filling the part completes the edit.** -/
theorem transfer_of_place (hf : f.Linked) (hpart : e.part? = some part) (legal : e.Legal f part)
    (h : Forest.Released f g e.moved) {c : Contents} (hc : f.contents? e.node = some c) :
    Transfer f (g.place e.node part (c.without e.moved) (e.contentIn (c.without e.moved))
      e.children) e part := by
  have hc' : g.contents? e.node = some (c.without e.moved) := by rw [h.contents, hc]; rfl
  rw [contentIn_without hpart legal hc]
  constructor
  · rw [Forest.place, Forest.headers_modifyRecords, Forest.headers_modifyRecords,
      Forest.headers_setContents, h.headers]
  · exact ((h.intact.setContents ..).modifyRecords ..).modifyRecords ..
  · intro y
    rw [Forest.place, Forest.contents?_modifyRecords, Forest.contents?_modifyRecords,
      Forest.contents?_setContents h.intact hc' (Contents.kind_fill ..), h.contents]
    by_cases hy : y = e.node
    · simp only [hy, if_true, hc, Option.map_some]
    · simp only [hy, if_false]
  · exact record?_place_released hf h hc

/-- **A legal edit of a part succeeds, with the result that is described.** -/
theorem exists_transfer (hf : f.Linked) (hpart : e.part? = some part) (legal : e.Legal f part) :
    ∃ g, e.run.run f = .ok () g ∧ e.Transfer f g part := by
  obtain ⟨c, hc, admitted⟩ := legal.exists_contents hf.intact
  obtain ⟨g, hrun, released⟩ := hf.run_release_all (Forest.Released.refl hf.intact) e.children
  rw [List.nil_append] at released
  have hc' : g.contents? e.node = some (c.without e.moved) := by rw [released.contents, hc]; rfl
  rw [← Contents.kind_without e.moved c] at admitted
  rw [run_of_demands_ok ((demands_eq_ok_iff hf.intact hpart).mpr legal)]
  exact ⟨_, run_perform hpart hrun hc' admitted, transfer_of_place hf hpart legal released hc⟩

/-- An edit of a part that succeeds was legal, and has the result that is described. -/
theorem transfer_of_run_ok (hf : f.Linked) (hpart : e.part? = some part)
    (run : e.run.run f = .ok () g) : e.Legal f part ∧ e.Transfer f g part := by
  have legal : e.Legal f part := by
    rw [← demands_eq_ok_iff hf.intact hpart]
    cases hd : e.demands f with
    | ok => rfl
    | error err => cases (run_of_demands_error hd).symm.trans run
  obtain ⟨g', run', t⟩ := exists_transfer hf hpart legal
  cases run.symm.trans run'
  exact ⟨legal, t⟩

namespace Transfer

/-! ## Reading the result -/

variable (t : e.Transfer f g part)
include t

theorem header? (x : Link) : g.header? x = f.header? x := by
  simp only [Forest.header?, t.headers]

theorem contains (x : Link) : g.contains x = f.contains x := by
  simp only [Forest.contains, t.header?]

theorem kind? (x : Link) : g.kind? x = f.kind? x := by
  simp only [Forest.kind?, t.header?]

theorem contents_node {c : Contents} (hc : f.contents? e.node = some c) :
    g.contents? e.node = some ((c.without e.moved).fill part (e.content f)) := by
  rw [t.contents, hc, Option.map_some, if_pos rfl]

/-- The passed nodes have the node of the edit as parent, what the part has lost has none, and the
other parents are as before. -/
theorem parent (hf : f.Linked) (legal : e.Legal f part) (x : NodeIndex) :
    g.parent (some x) =
      if some x ∈ e.children then e.node
      else if some x ∈ f.occupants e.node part ∧ some x ∉ e.content f then none
      else f.parent (some x) := by
  rw [Forest.parent, t.record, Forest.parent]
  cases hr : f.record? (some x) with
  | some r => rfl
  | none =>
    have absent : f.contains (some x) = false := by
      rw [← hf.intact.isSome_record?, hr]
      rfl
    have passed : some x ∉ e.children := by
      intro hx
      rcases legal.nodes _ hx with known | ⟨hnone, -⟩
      · rw [absent] at known
        cases known
      · cases hnone
    simp [passed]

/-- The children of another node are those that were not passed. -/
theorem children {p : Link} (hp : p ≠ e.node) :
    g.children p = (f.children p).filter (· ∉ e.moved) := by
  rw [Forest.children, Forest.children, t.contents]
  cases f.contents? p with
  | none => rfl
  | some c =>
    rw [Option.map_some, if_neg hp]
    exact Contents.children_without e.moved c

end Transfer

/-- What is written is a possible content of the part. -/
theorem holds_content (hpart : e.part? = some part) : part.Holds (e.content f) := by
  cases e <;> cases hpart
  · exact List.length_singleton
  · trivial
  · trivial

/-- What is written was passed to the edit, or stood in the part before. -/
theorem mem_content (hpart : e.part? = some part) {x : NodeIndex} (hx : some x ∈ e.content f) :
    some x ∈ e.children ∨ some x ∈ f.occupants e.node part := by
  cases e with
  | append slot node child =>
    cases hpart
    rcases List.mem_append.mp hx with old | new
    · rw [Forest.occupants_list]
      exact Or.inr old
    · exact Or.inl new
  | setChild _ _ _ | setList _ _ _ => exact Or.inl hx
  | write _ _ | mark _ _ | setRange _ _ _ => cases hpart

end Edit

end SyntaxForest
