import SyntaxForest.Proofs.Agreement
import SyntaxForest.Proofs.Extensionality

/-!
# Edits in different trees

Two edits of children that name nodes of different trees can be performed in either order, with the
same result.  An edit writes to more nodes than it names: to those that its children are taken from,
and to those that it puts out of a slot.  All of these stand in trees of nodes that it names, also
below a clone that its parent does not store, because the way up goes by parents alone.

* `Edit.Elsewhere` — a node stands in none of the trees that an edit names nodes of;
* `Edit.Misses` — what an edit must not have to do with a node to leave it as it is;
* `Legal.of_elsewhere` — what is legal before an edit elsewhere is legal after it.

`Elsewhere` speaks of the trees before either edit.  After one of them the other still misses the
nodes that it missed (`Transfer.misses`), so trees are never compared half-way.
-/

namespace SyntaxForest

variable {f g : Forest}

namespace Forest

/-- A node and its parent have the same root. -/
theorem Linked.root_eq_of_parent (hf : f.Linked) {x p : NodeIndex}
    (hx : f.parent (some x) = some p) : f.root (some x) = f.root (some p) := by
  obtain ⟨n, r, path, root, top⟩ := hf.root_spec p
  rw [root]
  exact hf.root_eq_of_iterate (n := n + 1) (by rw [Function.iterate_succ_apply, hx, path]) top

end Forest

namespace Edit

/-- The nodes that an edit names. -/
def named (e : Edit) : List NodeIndex := e.node.toList ++ e.moved

/-- A node stands in none of the trees that an edit names nodes of. -/
def Elsewhere (f : Forest) (e : Edit) (z : NodeIndex) : Prop :=
  ∀ x ∈ e.named, f.root (some z) ≠ f.root (some x)

/-- An edit has nothing to do with a node: it neither names it, nor takes anything from it, nor
puts it out. -/
structure Misses (f : Forest) (e : Edit) (part : Part) (z : NodeIndex) : Prop where
  node : some z ≠ e.node
  moved : z ∉ e.moved
  stores : ∀ x ∈ e.moved, x ∉ f.children (some z)
  occupies : some z ∉ f.occupants e.node part

variable {e : Edit} {part : Part} {z : NodeIndex}

theorem mem_named_of_node (h : e.node = some z) : z ∈ e.named := by
  rw [named, h]
  exact List.mem_cons_self

theorem mem_named_of_moved (h : z ∈ e.moved) : z ∈ e.named := List.mem_append_right _ h

/-- What an edit writes depends on what its node holds. -/
theorem content_congr {f' : Forest} (same : f'.contents? e.node = f.contents? e.node) :
    e.content f' = e.content f := by
  cases e with
  | append slot node child =>
    have same : f'.contents? node = f.contents? node := same
    simp only [content, Forest.list, same]
  | _ => rfl

namespace Elsewhere

variable (away : e.Elsewhere f z)
include away

theorem node_ne : some z ≠ e.node := fun same =>
  away z (mem_named_of_node same.symm) rfl

theorem notMem_moved : z ∉ e.moved := fun passed => away z (mem_named_of_moved passed) rfl

variable (hf : f.Linked)
include hf

/-- Whoever stands above a node elsewhere stands elsewhere. -/
theorem of_parent {p : NodeIndex} (hz : f.parent (some z) = some p) : e.Elsewhere f p :=
  fun x hx same => away x hx ((hf.root_eq_of_parent hz).trans same)

/-- The parent of a node elsewhere is not the node of the edit. -/
theorem parent_ne (hnode : f.contains e.node) : f.parent (some z) ≠ e.node := by
  intro parent
  cases hx : e.node with
  | none => simp [hx] at hnode
  | some x =>
    rw [hx] at parent
    exact away x (mem_named_of_node hx) (hf.root_eq_of_parent parent)

/-- An edit misses whatever stands elsewhere. -/
theorem misses (hnode : f.contains e.node) (part : Part) : e.Misses f part z where
  node := away.node_ne
  moved := away.notMem_moved
  stores x passed stored := away x (mem_named_of_moved passed)
    (hf.root_eq_of_parent (hf.parent_of_mem stored)).symm
  occupies placed := away.parent_ne hf hnode
    (hf.parent_of_mem (Forest.mem_children_of_occupant part placed))

end Elsewhere

namespace Transfer

section

variable (t : e.Transfer f g part) (missed : e.Misses f part z)
include t missed

theorem contents?_of_misses : g.contents? (some z) = f.contents? (some z) := by
  rw [t.contents]
  cases hc : f.contents? (some z) with
  | none => rfl
  | some c =>
    rw [Option.map_some, if_neg missed.node, Contents.without_eq_self]
    intro x passed stored
    exact missed.stores x passed (Forest.mem_children_iff.mpr ⟨c, hc, stored⟩)

theorem record?_of_misses : g.record? (some z) = f.record? (some z) := by
  rw [t.record]
  cases f.record? (some z) with
  | none => rfl
  | some r =>
    rw [Option.map_some, if_neg fun passed => missed.moved (mem_moved.mpr passed),
      if_neg fun lost => missed.occupies lost.1, NodeRecord.withParent_parent]

theorem parent_of_misses : g.parent (some z) = f.parent (some z) := by
  rw [Forest.parent, t.record?_of_misses missed, Forest.parent]

end

/-- The way up from a node elsewhere is as it was. -/
theorem iterate_parent (hf : f.Linked) (legal : e.Legal f part) (t : e.Transfer f g part)
    (away : e.Elsewhere f z) (n : Nat) : g.parent^[n] (some z) = f.parent^[n] (some z) := by
  induction n generalizing z with
  | zero => rfl
  | succ n ih =>
    rw [Function.iterate_succ_apply, Function.iterate_succ_apply,
      t.parent_of_misses (away.misses hf legal.contains_node part)]
    cases hz : f.parent (some z) with
    | none => rw [Forest.iterate_parent_none, Forest.iterate_parent_none]
    | some p => exact ih (away.of_parent hf hz)

/-- The same edit of forests in which its node holds the same does the same to a node that is the
same in both. -/
theorem views_congr {f' g' : Forest} (t : e.Transfer f g part) (t' : e.Transfer f' g' part)
    (node : f'.contents? e.node = f.contents? e.node) (contents : f'.contents? z = f.contents? z)
    (record : f'.record? z = f.record? z) :
    g'.contents? z = g.contents? z ∧ g'.record? z = g.record? z := by
  have occupants : f'.occupants e.node part = f.occupants e.node part := by
    rw [Forest.occupants, node, Forest.occupants]
  constructor
  · rw [t'.contents, t.contents, contents, content_congr node]
  · rw [t'.record, t.record, record, content_congr node, occupants]

end Transfer

/-! ## Two edits -/

/-- Two edits name no nodes of the same tree. -/
def Apart (f : Forest) (e e' : Edit) : Prop :=
  ∀ x ∈ e.named, ∀ y ∈ e'.named, f.root (some x) ≠ f.root (some y)

instance (f : Forest) (e e' : Edit) : Decidable (Apart f e e') :=
  inferInstanceAs (Decidable (∀ x ∈ e.named, ∀ y ∈ e'.named, _))

namespace Apart

variable {e' : Edit} {part' : Part} (apart : Apart f e e')
include apart

theorem symm : Apart f e' e := fun y hy x hx same => apart x hx y hy same.symm

theorem elsewhere {y : NodeIndex} (hy : y ∈ e'.named) : e.Elsewhere f y :=
  fun x hx same => apart x hx y hy same.symm

/-- No node stands in trees of both edits. -/
theorem elsewhere_or (z : NodeIndex) : e.Elsewhere f z ∨ e'.Elsewhere f z := by
  by_cases away : e.Elsewhere f z
  · exact .inl away
  · simp only [Elsewhere, not_forall, not_not] at away
    obtain ⟨x, hx, same⟩ := away
    exact .inr fun y hy same' => apart x hx y hy (same.symm.trans same')

variable (hf : f.Linked) (legal : e.Legal f part) (t : e.Transfer f g part)
include hf legal t

/-- The node of the second edit is not written by the first. -/
theorem contents?_node : g.contents? e'.node = f.contents? e'.node := by
  cases hnode : e'.node with
  | none => rfl
  | some y =>
    exact t.contents?_of_misses
      ((apart.elsewhere (mem_named_of_node hnode)).misses hf legal.contains_node part)

variable (legal' : e'.Legal f part')
include legal'

/-- **What is legal before an edit elsewhere is legal after it.** -/
theorem legal_after (hg : g.Linked) : e'.Legal g part' where
  node := by simpa only [t.kind?] using legal'.node
  nodes := by simpa only [t.contains] using legal'.nodes
  acyclic c hc := by
    obtain ⟨hne, hancestor⟩ := legal'.acyclic c hc
    refine ⟨hne, fun above => hancestor ?_⟩
    rw [Forest.mem_ancestors hg.grounded hg.parents hg.intact] at above
    rw [Forest.mem_ancestors hf.grounded hf.parents hf.intact]
    obtain ⟨n, hn⟩ := above
    refine ⟨n, ?_⟩
    cases hnode : e'.node with
    | none => rw [hnode, Forest.iterate_parent_none] at hn; cases hn
    | some y =>
      rw [hnode, t.iterate_parent hf legal (apart.elsewhere (mem_named_of_node hnode))] at hn
      exact hn
  properties := by simpa only [t.kind?] using legal'.properties
  handlers := by simpa only [t.kind?] using legal'.handlers
  nodup := legal'.nodup
  absent slot node child he := by
    have same := apart.contents?_node hf legal t
    rw [he] at same
    have same : g.contents? node = f.contents? node := same
    rw [Forest.list, same, ← Forest.list]
    exact legal'.absent slot node child he

/-- After the first edit the second misses whatever stood elsewhere before. -/
theorem misses_after (hg : g.Linked) {z : NodeIndex} (away : e'.Elsewhere f z) :
    e'.Misses g part' z where
  node := away.node_ne
  moved := away.notMem_moved
  stores x passed stored := by
    have parent := hg.parent_of_mem stored
    have named := mem_named_of_moved passed
    rw [t.parent_of_misses ((apart.elsewhere named).misses hf legal.contains_node part)] at parent
    exact away x named (hf.root_eq_of_parent parent).symm
  occupies placed := by
    rw [Forest.occupants, apart.contents?_node hf legal t, ← Forest.occupants] at placed
    exact away.parent_ne hf legal'.contains_node
      (hf.parent_of_mem (Forest.mem_children_of_occupant part' placed))

/-- In either order, a node that the second edit misses is left as the first edit leaves it. -/
theorem views_eq (hg : g.Linked) {g' both both' : Forest} (t' : e'.Transfer f g' part')
    (second : e'.Transfer g both part') (first : e.Transfer g' both' part) {z : NodeIndex}
    (away : e'.Elsewhere f z) :
    both'.contents? z = both.contents? z ∧ both'.record? z = both.record? z := by
  have missed := away.misses hf legal'.contains_node part'
  have missed' := apart.misses_after hf legal t legal' hg away
  rw [second.contents?_of_misses missed', second.record?_of_misses missed']
  exact t.views_congr first (apart.symm.contents?_node hf legal' t')
    (t'.contents?_of_misses missed) (t'.record?_of_misses missed)

end Apart

/-- **Both orders lead to the same forest.** -/
theorem Transfer.comm (hf : f.Linked) {e' : Edit} {part' : Part} (apart : Apart f e e')
    {g' both both' : Forest} (hg : g.Linked) (hg' : g'.Linked) (legal : e.Legal f part)
    (legal' : e'.Legal f part') (t : e.Transfer f g part) (t' : e'.Transfer f g' part')
    (second : e'.Transfer g both part') (first : e.Transfer g' both' part) : both' = both := by
  have headers : both'.headers = both.headers := by
    rw [first.headers, t'.headers, second.headers, t.headers]
  have views (z : NodeIndex) :
      both'.contents? z = both.contents? z ∧ both'.record? z = both.record? z := by
    rcases apart.elsewhere_or z with away | away
    · have same := apart.symm.views_eq hf legal' t' legal hg' t first second away
      exact ⟨same.1.symm, same.2.symm⟩
    · exact apart.views_eq hf legal t legal' hg t' second first away
  refine second.intact.eq_of_views first.intact headers (fun y => ?_) fun y => ?_
  · cases y with
    | none => rfl
    | some z => exact (views z).1
  · cases y with
    | none => rfl
    | some z => exact (views z).2

end Edit

/-- **Edits in different trees commute.**  Of two edits of children that both succeed in a forest,
and that name no nodes of the same tree, each succeeds after the other, and both orders lead to the
same forest. -/
theorem Reached.edits_commute {f g g' : Forest} {loose : List NodeIndex} (h : Reached f loose)
    {e e' : Edit} {part part' : Part} (hpart : e.part? = some part) (hpart' : e'.part? = some part')
    (run : e.run.run f = .ok () g) (run' : e'.run.run f = .ok () g')
    (apart : Edit.Apart f e e') :
    ∃ both, e'.run.run g = .ok () both ∧ e.run.run g' = .ok () both := by
  have hf := h.tended.linked
  obtain ⟨legal, t⟩ := Edit.transfer_of_run_ok hf hpart run
  obtain ⟨legal', t'⟩ := Edit.transfer_of_run_ok hf hpart' run'
  have hg := hf.of_transfer hpart legal t
  have hg' := hf.of_transfer hpart' legal' t'
  obtain ⟨both, second, last⟩ :=
    Edit.exists_transfer hg hpart' (apart.legal_after hf legal t legal' hg)
  obtain ⟨both', first, last'⟩ :=
    Edit.exists_transfer hg' hpart (apart.symm.legal_after hf legal' t' legal hg')
  obtain rfl := Edit.Transfer.comm hf apart hg hg' legal legal' t t' last last'
  exact ⟨_, second, first⟩

/-- A name is moved out of a loop, and from the clone of the block around it the clone of the loop
is taken. -/
theorem edits_commute_beside : ∃ g g' both,
    (Edit.append .statements (some 0) (some 2)).run.run
      (Command.perform (Command.nested.dropLast ++ [(0, .clone (some 0) none)])).1 = .ok () g ∧
    (Edit.setList .statements (some 3) []).run.run
      (Command.perform (Command.nested.dropLast ++ [(0, .clone (some 0) none)])).1 = .ok () g' ∧
    (Edit.setList .statements (some 3) []).run.run g = .ok () both ∧
    (Edit.append .statements (some 0) (some 2)).run.run g' = .ok () both := by
  have h := reached_perform (Command.nested.dropLast ++ [(0, .clone (some 0) none)])
  have legal : (Edit.append .statements (some 0) (some 2)).Legal
      (Command.perform (Command.nested.dropLast ++ [(0, .clone (some 0) none)])).1
      (.list .statements) :=
    (Edit.demands_eq_ok_iff h.tended.linked.intact rfl).mp (by decide +kernel)
  have legal' : (Edit.setList .statements (some 3) []).Legal
      (Command.perform (Command.nested.dropLast ++ [(0, .clone (some 0) none)])).1
      (.list .statements) :=
    (Edit.demands_eq_ok_iff h.tended.linked.intact rfl).mp (by decide +kernel)
  obtain ⟨g, run, -⟩ := Edit.exists_transfer h.tended.linked rfl legal
  obtain ⟨g', run', -⟩ := Edit.exists_transfer h.tended.linked rfl legal'
  obtain ⟨both, second, first⟩ := Reached.edits_commute h rfl rfl run run' (by decide +kernel)
  exact ⟨g, g', both, run, run', second, first⟩

end SyntaxForest
