import SyntaxForest.Proofs.Ending
import SyntaxForest.Proofs.Runs

/-!
# Ownership

The rule of editing is that a node stands in one place at a time.  This module says what the rule
comes to, for every forest that commands lead to and every edit of children of such a forest.

* `Reached.orderly` — slots, lists and parents fit together, and whatever follows them ends;
* `Reached.edit_iff_legal` — an edit succeeds exactly if it is legal, and a refusal leaves no trace;
* `Reached.placed` — what a successful edit does, and that it does nothing else.

Nothing here looks at a program.  The invariant is `Reached.tended`, the program of an edit is
`Edit.exists_transfer`, and the three results say in the words of the queries what these two say in
the words of the proofs.
-/

namespace SyntaxForest

open Traversal

variable {f g : Forest} {loose : List NodeIndex}

/-! ## Forests that were reached -/

/-- What is true of the trees of a forest; `loose` are the clones that were put under a parent and
that no edit has stored since. -/
structure Forest.Orderly (f : Forest) (loose : List NodeIndex) : Prop where
  /-- Whoever stands in a slot is a node, and its parent is the node with the slot. -/
  child : ∀ {p slot c}, f.child p slot = some c → f.contains (some c) ∧ f.parent (some c) = p
  /-- Whoever stands in a list is a node, and its parent is the node with the list. -/
  list : ∀ {p slot c}, some c ∈ f.list p slot → f.contains (some c) ∧ f.parent (some c) = p
  /-- All slots and lists of all nodes together store no node twice. -/
  once : ((List.range f.size).flatMap fun p => f.stored (some p)).Nodup
  /-- Following parents comes to an end. -/
  grounded : ∀ x, ∃ n, f.parent^[n] x = none
  /-- No node is its own ancestor, neither by parents nor by slots. -/
  not_above : ∀ x n, f.parent^[n + 1] (some x) ≠ some x
  not_below : ∀ x, ¬ Relation.TransGen (fun a b => b ∈ f.stored (some a)) x x
  /-- The loops that follow parents and slots end, each with the answer of its query. -/
  ancestors_end : ∀ x, ∃ n, f.parent^[n + 1] x = none ∧
    (f.ancestors x).map some = (List.range n).map fun i => f.parent^[i + 1] x
  visit_ends : ∀ {σ : Type} (visitor : σ → NodeIndex → σ × Bool) (state : σ) {x},
    f.contains (some x) →
      ∃ n, (turn f.below visitor)^[n] ([x], state) = ([], f.visit visitor (some x) state)
  height_ends : ∀ {x}, f.contains (some x) →
    ∃ n, (turn (belowAtLevel f.below) deepest)^[n] ([(x, 1)], 0) = ([], f.height (some x))
  sameShape_ends : ∀ {g loose'}, Reached g loose' → ∀ x y,
    ∃ n, (turn (Forest.pairsBelow f g) (checking (Forest.agree f g)))^[n] ([(x, y)], true) =
      ([], f.sameShape x g y)
  /-- A parent stores its children, but for the loose ones. -/
  stored_iff : ∀ {c p}, f.parent (some c) = some p → (c ∈ f.stored (some p) ↔ c ∉ loose)
  /-- What is loose has a parent, which does not store it. -/
  loose : ∀ c ∈ loose, ∃ p, f.parent (some c) = some p ∧ c ∉ f.stored (some p)

/-- **In every forest that was reached, the trees are in order.** -/
theorem Reached.orderly (h : Reached f loose) : f.Orderly loose := by
  have tended := h.tended
  have hf := tended.linked
  have stored {c : NodeIndex} {p : Link} : c ∈ f.stored p ↔ c ∈ f.children p :=
    (f.stored_perm p).mem_iff
  constructor
  · intro p slot c hc
    have hmem := Forest.mem_children_of_child slot hc
    exact ⟨hf.contains_of_mem_children hmem, hf.parent_of_mem hmem⟩
  · intro p slot c hc
    have hmem := Forest.mem_children_of_mem_list slot hc
    exact ⟨hf.contains_of_mem_children hmem, hf.parent_of_mem hmem⟩
  · exact hf.nodup_stored
  · exact hf.grounded
  · exact hf.grounded.iterate_ne
  · intro x path
    obtain ⟨y, path, step⟩ := Relation.TransGen.tail'_iff.mp path
    have path : Relation.ReflTransGen (fun a b => b ∈ f.below a) x y :=
      Relation.ReflTransGen.mono (fun a b hb => stored.mp hb) x y path
    obtain ⟨n, hn⟩ := hf.iterate_of_path path
    apply hf.grounded.iterate_ne x n
    rw [Function.iterate_succ_apply, hf.parent_of_mem (stored.mp step), hn]
  · exact hf.ancestors_end
  · exact hf.visit_ends
  · exact hf.height_ends
  · intro g loose' hg
    exact hf.sameShape_ends hg.tended.linked
  · intro c p hp
    rw [stored, tended.mem_children_iff hp]
  · intro c hc
    obtain ⟨p, hp⟩ := tended.exists_parent c hc
    refine ⟨p, hp, ?_⟩
    rw [stored, tended.mem_children_iff hp]
    exact not_not_intro hc

theorem orderly_nested : (Command.perform Command.nested).1.parent (some 3) = some 1 ∧
    (Command.perform Command.nested).1.Orderly [3] := by
  have loose : (Command.perform Command.nested).2 = [3] := by decide +kernel
  have orderly := Reached.orderly (reached_perform Command.nested)
  rw [loose] at orderly
  exact ⟨by decide +kernel, orderly⟩

/-! ## When an edit succeeds -/

/-- **An edit of children succeeds exactly if it is legal, and if it fails everything is as
before.** -/
theorem Reached.edit_iff_legal (h : Reached f loose) {e : Edit} {part : Part}
    (hpart : e.part? = some part) :
    ((∃ g, e.run.run f = .ok () g) ↔ e.Legal f part) ∧
      ∀ err g, e.run.run f = .error err g → g = f := by
  have hf := h.tended.linked
  refine ⟨⟨?_, ?_⟩, ?_⟩
  · rintro ⟨g, run⟩
    exact (Edit.transfer_of_run_ok hf hpart run).1
  · intro legal
    obtain ⟨g, run, -⟩ := Edit.exists_transfer hf hpart legal
    exact ⟨g, run⟩
  · intro err g run
    cases hd : e.demands f with
    | ok =>
      have legal := (Edit.demands_eq_ok_iff hf.intact hpart).mp hd
      obtain ⟨g', run', -⟩ := Edit.exists_transfer hf hpart legal
      cases run.symm.trans run'
    | error err' =>
      cases run.symm.trans (Edit.run_of_demands_error hd)
      rfl

/-- Into the loop the clone may go, but nothing above the loop may go below its copy. -/
theorem edit_iff_legal_nested :
    (∃ g, (Edit.setChild .body (some 1) (some 3)).run.run (Command.perform Command.nested).1 =
        .ok () g) ∧
      ∀ g, (Edit.setChild .body (some 4) (some 1)).run.run (Command.perform Command.nested).1 ≠
        .ok () g := by
  have h := reached_perform Command.nested
  refine ⟨(Reached.edit_iff_legal h rfl).1.mpr ?_, fun g run => ?_⟩
  · exact (Edit.demands_eq_ok_iff h.tended.linked.intact rfl).mp (by decide +kernel)
  · have legal := (Reached.edit_iff_legal h rfl).1.mp ⟨g, run⟩
    have above : 1 ∈ (Command.perform Command.nested).1.ancestors (some 4) := by decide +kernel
    exact (legal.acyclic 1 (List.mem_singleton_self _)).2 above

/-! ## What an edit does -/

/-- What an edit of a part does to a forest: the nodes that are passed move into the part, the
part lets go of what it does not hold any more, and nothing else changes. -/
structure Edit.Placed (f g : Forest) (e : Edit) (part : Part) : Prop where
  /-- The part holds what was passed, behind what was there if the edit appends. -/
  content : g.occupants e.node part = e.content f
  /-- Whoever was passed has the node of the edit as parent. -/
  adopted : ∀ {c}, c ∈ e.moved → g.parent (some c) = e.node
  /-- In every other slot nobody stands who was passed, and else whoever stood there. -/
  child : ∀ {p slot}, ¬ (p = e.node ∧ part = .child slot) →
    g.child p slot = if f.child p slot ∈ e.moved.map some then none else f.child p slot
  /-- In every other list those who were passed are missing, and the others keep their order. -/
  list : ∀ {p slot}, ¬ (p = e.node ∧ part = .list slot) →
    g.list p slot = (f.list p slot).filter (· ∉ e.moved.map some)
  /-- Whoever stood in the part and does not any more has no parent. -/
  displaced : ∀ {c}, some c ∈ f.occupants e.node part → some c ∉ g.occupants e.node part →
    c ∉ e.moved → g.parent (some c) = none
  /-- Everybody else has the parent that they had. -/
  parent : ∀ {c}, c ∉ e.moved →
    (some c ∈ f.occupants e.node part → some c ∈ g.occupants e.node part) →
    g.parent (some c) = f.parent (some c)
  headers : g.headers = f.headers
  scalars : ∀ x, (g.contents? x).map (·.scalars) = (f.contents? x).map (·.scalars)
  records : ∀ x, (g.record? x).map (·.withParent none) = (f.record? x).map (·.withParent none)

namespace Edit.Transfer

variable {e : Edit} {part : Part} (t : e.Transfer f g part)
include t

/-- What a slot holds that is not the part of the edit. -/
theorem child {p : Link} {slot : ChildSlot} (other : ¬ (p = e.node ∧ part = .child slot)) :
    g.child p slot = if f.child p slot ∈ e.moved.map some then none else f.child p slot := by
  have kept : none ∉ e.moved.map some := by simp
  rw [Forest.child, Forest.child, t.contents]
  cases f.contents? p with
  | none => simp
  | some c =>
    rw [Option.map_some, Option.bind_some, Option.bind_some]
    by_cases hp : p = e.node
    · have hslot : part ≠ .child slot := fun h => other ⟨hp, h⟩
      rw [if_pos hp, Contents.child?_fill, Contents.child?_without]
      cases c.child? slot with
      | none => simp
      | some old => simp only [hslot, if_false, Option.map_some, Option.join_some]
    · rw [if_neg hp, Contents.child?_without]
      cases c.child? slot with
      | none => simp
      | some old => simp only [Option.map_some, Option.join_some]

/-- What the part of the edit holds. -/
theorem occupants (hf : f.Linked) (hpart : e.part? = some part) (legal : e.Legal f part) :
    g.occupants e.node part = e.content f := by
  obtain ⟨c, hc, admitted⟩ := legal.exists_contents hf.intact
  rw [← Contents.kind_without e.moved] at admitted
  rw [Forest.occupants_of_contents? (t.contents_node hc),
    Contents.occupants_fill admitted (holds_content hpart)]

end Edit.Transfer

/-- **A successful edit of children does exactly what `Edit.Placed` says.** -/
theorem Reached.placed (h : Reached f loose) {e : Edit} {part : Part}
    (hpart : e.part? = some part) (run : e.run.run f = .ok () g) : e.Placed f g part := by
  have hf := h.tended.linked
  obtain ⟨legal, t⟩ := Edit.transfer_of_run_ok hf hpart run
  have content := t.occupants hf hpart legal
  have parent := t.parent hf legal
  refine ⟨content, ?_, t.child, ?_, ?_, ?_, t.headers, ?_, ?_⟩
  · intro c hc
    rw [parent, if_pos (Edit.mem_moved.mp hc)]
  · intro p slot other
    rw [t.list hf hpart legal, if_neg other]
  · intro c before after hc
    rw [content] at after
    rw [parent, if_neg fun passed => hc (Edit.mem_moved.mpr passed), if_pos ⟨before, after⟩]
  · intro c hc stays
    rw [content] at stays
    rw [parent, if_neg fun passed => hc (Edit.mem_moved.mpr passed), if_neg]
    rintro ⟨before, after⟩
    exact after (stays before)
  · intro x
    rw [t.contents, Option.map_map]
    apply Option.map_congr
    intro c _
    rw [Function.comp_apply]
    split
    · rw [Contents.scalars_fill, Contents.scalars_without]
    · rw [Contents.scalars_without]
  · intro x
    rw [t.record, Option.map_map]
    rfl

/-- The name moves out of the loop into the block, and the loop leaves the block. -/
theorem placed_nested : ∃ g,
    (Edit.setList .statements (some 0) [some 2]).run.run (Command.perform Command.nested).1 =
        .ok () g ∧
      (Edit.setList .statements (some 0) [some 2]).Placed (Command.perform Command.nested).1 g
        (.list .statements) ∧
      g.child (some 1) .condition = none ∧ g.parent (some 1) = none := by
  have h := reached_perform Command.nested
  have legal : (Edit.setList .statements (some 0) [some 2]).Legal
      (Command.perform Command.nested).1 (.list .statements) :=
    (Edit.demands_eq_ok_iff h.tended.linked.intact rfl).mp (by decide +kernel)
  obtain ⟨g, run, -⟩ := Edit.exists_transfer h.tended.linked rfl legal
  have placed := Reached.placed h rfl run
  refine ⟨g, run, placed, ?_, ?_⟩
  · rw [placed.child (fun other => nomatch other.2)]
    decide +kernel
  · refine placed.displaced (by decide +kernel) ?_ (by decide +kernel)
    rw [placed.content]
    decide +kernel

/-- Two things that an edit does not do.  What is appended displaces nobody, so entries that are not
passed keep their parent; and a child that is put into the slot that it stands in stays there. -/
theorem not_all_displaced_nor_gone :
    (¬ ∀ (f g : Forest) (loose : List NodeIndex) (e : Edit) (part : Part), Reached f loose →
      e.part? = some part → e.run.run f = .ok () g →
        ∀ c, some c ∈ f.occupants e.node part → c ∉ e.moved → g.parent (some c) = none) ∧
    ¬ ∀ (f g : Forest) (loose : List NodeIndex) (e : Edit) (part : Part), Reached f loose →
      e.part? = some part → e.run.run f = .ok () g →
        ∀ c ∈ e.moved, ∀ p part', some c ∈ f.occupants p part' → some c ∉ g.occupants p part' := by
  constructor
  · intro displaced
    have h := reached_perform Command.nested
    have legal : (Edit.append .statements (some 0) (some 2)).Legal
        (Command.perform Command.nested).1 (.list .statements) :=
      (Edit.demands_eq_ok_iff h.tended.linked.intact rfl).mp (by decide +kernel)
    obtain ⟨g, run, t⟩ := Edit.exists_transfer h.tended.linked rfl legal
    have lost := displaced _ g _ _ _ h rfl run 1 (by decide +kernel) (by decide +kernel)
    have kept : g.parent (some 1) = some 0 := by
      rw [t.parent h.tended.linked legal]
      decide +kernel
    rw [kept] at lost
    cases lost
  · intro gone
    have h := reached_perform Command.nested
    have legal : (Edit.setChild .condition (some 1) (some 2)).Legal
        (Command.perform Command.nested).1 (.child .condition) :=
      (Edit.demands_eq_ok_iff h.tended.linked.intact rfl).mp (by decide +kernel)
    obtain ⟨g, run, t⟩ := Edit.exists_transfer h.tended.linked rfl legal
    refine gone _ g _ _ _ h rfl run 2 (by decide +kernel) (some 1) (.child .condition)
      (by decide +kernel) ?_
    rw [show g.occupants (some 1) (.child .condition) = _ from
      t.occupants h.tended.linked rfl legal]
    decide +kernel

end SyntaxForest
