import SyntaxForest.Proofs.Likeness
import SyntaxForest.Proofs.Values

/-!
# Trees that commands leave alone

A command that changes no node of a tree, and moves none from inside it, leaves the tree as it was,
for every walker of this library and over runs of any length.  The tree as a whole may be moved or
put out of its place.  The nodes of a forest share their pools, and an edit reaches beyond the nodes
that it names: to the node that a child is taken from, and to whatever it puts out of a slot.
Neither matters.  A node of the tree holds only what is inside, and what is put out only loses its
parent, at which no walker looks.

* `Forest.Keeps` — some nodes are what they were, but for their parents;
* `Command.keeps_of_run_ok`, `Command.keeps_resume` — what a step keeps, and what a run keeps;
* `Reached.tree_unchanged` — what this means for the walkers, and for a clone and its source.

What is load-bearing is that nothing but the inside of a tree is stored by its nodes: a child that
is moved was not stored by any of them.
-/

namespace SyntaxForest

variable {f g : Forest}

/-! ## Nodes that are kept -/

namespace Forest

variable {nodes inner : List NodeIndex}

theorem Keeps.refl (f : Forest) (nodes : List NodeIndex) : f.Keeps f nodes :=
  ⟨fun _ _ => rfl, fun _ _ => rfl, fun _ _ => rfl⟩

theorem Keeps.trans {h : Forest} (first : f.Keeps g nodes) (second : g.Keeps h nodes) :
    f.Keeps h nodes where
  header? x hx := (second.header? x hx).trans (first.header? x hx)
  contents? x hx := (second.contents? x hx).trans (first.contents? x hx)
  record? x hx := (second.record? x hx).trans (first.record? x hx)

theorem Keeps.contains (t : f.Keeps g nodes) {x : NodeIndex} (hx : x ∈ nodes) :
    g.contains (some x) = f.contains (some x) := by
  rw [Forest.contains, t.header? x hx, Forest.contains]

theorem Keeps.below (t : f.Keeps g nodes) {x : NodeIndex} (hx : x ∈ nodes) :
    g.below x = f.below x := by
  rw [Forest.below, Forest.children, t.contents? x hx]
  rfl

/-- Some nodes are all there, and what is below them is among the inner ones. -/
structure Whole (f : Forest) (nodes inner : List NodeIndex) : Prop where
  known : ∀ x ∈ nodes, f.contains (some x)
  closed : ∀ x ∈ nodes, ∀ y ∈ f.below x, y ∈ inner

/-- The nodes of a tree but its root. -/
def inside (f : Forest) (x : Link) : List NodeIndex := (f.preorder x).filter (some · ≠ x)

theorem mem_inside {x : Link} {y : NodeIndex} :
    y ∈ f.inside x ↔ y ∈ f.preorder x ∧ some y ≠ x := by
  rw [inside, List.mem_filter, decide_eq_true_iff]

/-- The root of a tree is below none of its nodes. -/
theorem Linked.whole_preorder (hf : f.Linked) (x : Link) : f.Whole (f.preorder x) (f.inside x) where
  known _ hy := hf.contains_of_mem_preorder hy
  closed y hy z hz := by
    cases x with
    | none => cases hy
    | some x =>
      cases hx : f.contains (some x) with
      | false =>
        rw [preorder_of_not_contains hx] at hy
        cases hy
      | true =>
        refine mem_inside.mpr ⟨hf.mem_preorder_of_below hx hy hz, ?_⟩
        intro root
        cases root
        exact hf.acyclic z (.tail' ((hf.mem_preorder_iff hx).mp hy) hz)

theorem Whole.of_keeps (h : f.Whole nodes inner) (t : f.Keeps g nodes) : g.Whole nodes inner where
  known x hx := (t.contains hx).trans (h.known x hx)
  closed x hx y hy := h.closed x hx y (t.below hx ▸ hy)

end Forest

/-! ## What a step keeps -/

namespace Command

/-- The nodes that a command names in order to change them. -/
def changed : Command → List NodeIndex
  | .edit e => e.node.toList
  | .construct _ | .clone _ _ | .clear => []

/-- The nodes that a command names in order to move them. -/
def moved : Command → List NodeIndex
  | .edit e => e.moved
  | .construct _ | .clone _ _ | .clear => []

/-- The command changes none of some nodes and moves none of the inner ones. -/
structure Spares (c : Command) (nodes inner : List NodeIndex) : Prop where
  stays : c ≠ .clear
  changed : ∀ x ∈ c.changed, x ∉ nodes
  moved : ∀ x ∈ c.moved, x ∉ inner

variable {nodes inner : List NodeIndex} {c : Command} {e : Edit}

theorem Spares.node_ne (spared : (Command.edit e).Spares nodes inner) {x : NodeIndex}
    (hx : x ∈ nodes) : some x ≠ e.node := by
  intro same
  exact spared.changed x (by rw [Command.changed, ← same]; exact List.mem_singleton_self x) hx

/-- **A command that spares some nodes keeps them.** -/
theorem keeps_of_run_ok (hf : f.Linked) (whole : f.Whole nodes inner)
    (spared : c.Spares nodes inner) {id : Nat} {answer : Option NodeIndex}
    (run : (c.run id).run f = .ok answer g) : f.Keeps g nodes := by
  cases effect_of_run_ok hf run with
  | construct id c =>
    have old {x : NodeIndex} (hx : x ∈ nodes) : some x ≠ some f.size :=
      Forest.ne_size_of_contains (whole.known x hx)
    refine ⟨fun x hx => ?_, fun x hx => ?_, fun x hx => ?_⟩
    · rw [Forest.construct, Forest.header?_push, if_neg (old hx)]
    · rw [Forest.contents?_construct hf, if_neg (old hx)]
    · rw [Forest.construct, Forest.record?_push _ _ _ _ _ hf.intact, if_neg (old hx)]
  | @part _ e part hpart legal t =>
    refine ⟨fun x _ => t.header? _, fun x hx => ?_, fun x _ => ?_⟩
    · rw [t.contents]
      cases held : f.contents? (some x) with
      | none => rfl
      | some c =>
        -- whatever `x` stores is an inner node, and none of these is moved
        have stays : c.without e.moved = c := Contents.without_eq_self fun y hy stored =>
          spared.moved y hy (whole.closed x hx y (Forest.mem_children_iff.mpr ⟨c, held, stored⟩))
        rw [Option.map_some, if_neg (spared.node_ne hx), stays]
    · rw [t.record, Option.map_map]
      rfl
  | value _ w =>
    have same {x : NodeIndex} (hx : x ∈ nodes) := w.eq_elsewhere hf.intact (spared.node_ne hx)
    exact ⟨fun x hx => (same hx).1, fun x hx => (same hx).2.1,
      fun x hx => congrArg (Option.map _) (same hx).2.2⟩
  | clone clonable t => exact t.keeps whole.known
  | clear => exact absurd rfl spared.stays

/-! ## What a run keeps -/

/-- Perform some commands, each under an identity of its own, on a forest that is there. -/
def resume (f : Forest) (steps : List (Nat × Command)) : Forest := (steps.foldl advance (f, [])).1

theorem resume_cons (f : Forest) (step : Nat × Command) (steps : List (Nat × Command)) :
    resume f (step :: steps) = resume (advance (f, []) step).1 steps := by
  have blind (steps : List (Nat × Command)) (f : Forest) (loose loose' : List NodeIndex) :
      (steps.foldl advance (f, loose)).1 = (steps.foldl advance (f, loose')).1 := by
    induction steps generalizing f loose loose' with
    | nil => rfl
    | cons step steps ih =>
      rw [List.foldl_cons, List.foldl_cons, advance, advance]
      cases (step.2.run step.1).run f <;> exact ih ..
  exact blind steps _ _ []

/-- One command, whether it fails or not, leads from a linked forest to a linked forest. -/
theorem linked_advance (hf : f.Linked) (step : Nat × Command) :
    (advance (f, []) step).1.Linked := by
  unfold advance
  cases run : (step.2.run step.1).run f with
  | ok answer g => exact (effect_of_run_ok hf run).linked hf
  | error err g => exact eq_of_run_error hf run ▸ hf

theorem linked_resume (hf : f.Linked) (steps : List (Nat × Command)) :
    (resume f steps).Linked := by
  induction steps generalizing f with
  | nil => exact hf
  | cons step steps ih => exact resume_cons f step steps ▸ ih (linked_advance hf step)

/-- One command, whether it fails or not, keeps what it spares. -/
theorem keeps_advance (hf : f.Linked) (whole : f.Whole nodes inner) {step : Nat × Command}
    (spared : step.2.Spares nodes inner) : f.Keeps (advance (f, []) step).1 nodes := by
  unfold advance
  cases run : (step.2.run step.1).run f with
  | ok answer g => exact keeps_of_run_ok hf whole spared run
  | error err g => exact eq_of_run_error hf run ▸ .refl f nodes

/-- **Commands that spare some nodes keep them**, however many they are. -/
theorem keeps_resume {steps : List (Nat × Command)} (hf : f.Linked) (whole : f.Whole nodes inner)
    (spared : ∀ step ∈ steps, step.2.Spares nodes inner) : f.Keeps (resume f steps) nodes := by
  induction steps generalizing f with
  | nil => exact .refl f nodes
  | cons step steps ih =>
    rw [List.forall_mem_cons] at spared
    have first := keeps_advance hf whole spared.1
    rw [resume_cons]
    exact first.trans (ih (linked_advance hf step) (whole.of_keeps first) spared.2)

end Command

/-! ## What walkers see -/

namespace Forest

/-- The first nodes of all identities are found in pre-order. -/
theorem idMap_some {x : NodeIndex} (hx : f.contains (some x)) : f.idMap (some x) =
    (f.preorder (some x)).foldl (fun known y =>
      match f.record? (some y) with
      | some r => known.insertIfNew r.id y
      | none => known) ∅ := by
  rw [idMap, visit]
  simp only [hx, if_true]
  rw [Traversal.walk_eq_explore, List.foldl_cons, List.foldl_nil,
    Traversal.explore_eq_foldl, ← preorder_some hx]
  · refine List.foldl_ext _ _ _ fun known y _ => ?_
    cases f.record? (some y) <;> rfl
  · intro y _ known
    cases f.record? (some y) <;> rfl

/-- Everything that can be seen of a tree is the same in another forest. -/
structure Unchanged (f g : Forest) (x : Link) : Prop where
  preorder : g.preorder x = f.preorder x
  height : g.height x = f.height x
  idMap : g.idMap x = f.idMap x
  print : ∀ o depth, g.print o x depth = f.print o x depth
  record : g.record x = f.record x
  outline : g.outline x = f.outline x

/-- **A tree whose nodes are kept is unchanged.** -/
theorem Keeps.unchanged (hf : f.Linked) (hg : g.Linked) {x : Link} (hx : f.contains x)
    (t : f.Keeps g (f.preorder x)) : f.Unchanged g x := by
  cases x with
  | none => cases hx
  | some x =>
    have alike := t.alike hf
    have order : g.preorder (some x) = f.preorder (some x) :=
      (alike.preorder hf hg hx).trans (List.map_id _)
    refine ⟨order, alike.height hf hg hx, ?_, alike.print_eq hf hg hx, alike.record_eq hf hg hx,
      alike.outline_eq hf hg hx⟩
    rw [idMap_some hx, idMap_some (show g.contains (some x) from alike.root hf hx), order]
    refine List.foldl_ext _ _ _ fun known y hy => ?_
    have same := t.record? y hy
    cases hr : f.record? (some y) with
    | none =>
      rw [hr, Option.map_none, Option.map_eq_none_iff] at same
      rw [same]
    | some r =>
      rw [hr, Option.map_some, Option.map_eq_some_iff] at same
      obtain ⟨r', hr', same⟩ := same
      have ids : (r'.withParent none).id = (r.withParent none).id := by rw [same]
      simp only [NodeRecord.withParent] at ids
      simp only [hr', ids]

end Forest

/-- **Commands that spare a tree leave it unchanged.** -/
theorem Forest.Linked.unchanged_resume (hf : f.Linked) {x : Link} (hx : f.contains x)
    {steps : List (Nat × Command)}
    (spared : ∀ step ∈ steps, step.2.Spares (f.preorder x) (f.inside x)) :
    f.Unchanged (Command.resume f steps) x :=
  (Command.keeps_resume hf (hf.whole_preorder x) spared).unchanged hf
    (Command.linked_resume hf steps) hx

/-- A command that names no node of a tree spares it. -/
theorem Command.Spares.of_named {c : Command} {x : Link} (stays : c ≠ .clear)
    (named : ∀ y ∈ c.changed ++ c.moved, y ∉ f.preorder x) :
    c.Spares (f.preorder x) (f.inside x) where
  stays := stays
  changed y hy := named y (List.mem_append_left _ hy)
  moved y hy listed := named y (List.mem_append_right _ hy) (Forest.mem_inside.mp listed).1

/-- **What commands do elsewhere never shows in a tree.**  Take commands that fail or not, none of
which clears the forest, names a node of a tree in order to change it, or names one but the root in
order to move it.  Afterwards the tree has the same order, height and identities, the same text at
every depth and with every option, the same record and the same outline, errors included.  In
particular a source is unchanged by commands that name nothing but nodes of its clone and new nodes,
and a clone by commands that name nothing but nodes of its source and new nodes. -/
theorem Reached.tree_unchanged {loose : List NodeIndex} (h : Reached f loose) :
    (∀ x steps, f.contains x → (∀ step ∈ steps, step.2 ≠ Command.clear ∧
        (∀ y ∈ step.2.changed, y ∉ f.preorder x) ∧
        ∀ y ∈ step.2.moved, y ∈ f.preorder x → some y = x) →
      f.Unchanged (Command.resume f steps) x) ∧
    ∀ source parent copy g steps, (Editing.clone source parent).run f = .ok copy g →
      (∀ step ∈ steps, step.2 ≠ Command.clear) →
      ((∀ step ∈ steps, ∀ y ∈ step.2.changed ++ step.2.moved,
          y ∈ g.preorder (some copy) ∨ ¬ g.contains (some y)) →
        g.Unchanged (Command.resume g steps) source) ∧
      ((∀ step ∈ steps, ∀ y ∈ step.2.changed ++ step.2.moved,
          y ∈ g.preorder source ∨ ¬ g.contains (some y)) →
        g.Unchanged (Command.resume g steps) (some copy)) := by
  have hf := h.tended.linked
  constructor
  · intro x steps hx spared
    refine hf.unchanged_resume hx fun step hstep => ?_
    obtain ⟨stays, changed, moved⟩ := spared step hstep
    refine ⟨stays, changed, fun y hy listed => ?_⟩
    obtain ⟨listed, inner⟩ := Forest.mem_inside.mp listed
    exact inner (moved y hy listed)
  intro source parent copy g steps run stays
  obtain ⟨source, rfl, clonable, rfl, t⟩ := hf.cloned_of_run_ok run
  have hg := hf.of_cloned t clonable
  have root : g.contains (some f.size) :=
    hf.copyOf_source clonable.node ▸ t.contains_copy (hf.mem_preorder_self clonable.node)
  -- the copies stand behind everything that was there
  have apart {y : NodeIndex} (copied : y ∈ g.preorder (some f.size)) :
      y ∉ g.preorder (some source) := by
    intro before
    have order := (t.alike_old (x := source) hf).preorder hf hg clonable.node
    rw [id, List.map_id_fun, id] at order
    rw [order] at before
    rw [t.preorder_copy hf clonable.node] at copied
    have old := Forest.contains_some.mp (hf.contains_of_mem_preorder before)
    exact Nat.not_lt.mpr (List.mem_range'_1.mp copied).1 old
  constructor
  · intro named
    refine hg.unchanged_resume (t.contains_old clonable.node) fun step hstep =>
      .of_named (stays step hstep) fun y hy listed => ?_
    rcases named step hstep y hy with copied | new
    · exact apart copied listed
    · exact new (hg.contains_of_mem_preorder listed)
  · intro named
    refine hg.unchanged_resume root fun step hstep =>
      .of_named (stays step hstep) fun y hy listed => ?_
    rcases named step hstep y hy with source | new
    · exact apart listed source
    · exact new (hg.contains_of_mem_preorder listed)

/-- A loop that a block takes out of another one is unchanged.  It is unchanged as well when the
condition of a clone of it is replaced. -/
theorem tree_unchanged_nested :
    (∃ g, g = Command.resume (Command.perform Command.nested).1
        [(4, .construct (.node .block 0 0)), (0, .edit (.append .statements (some 6) (some 1)))] ∧
      (Command.perform Command.nested).1.Unchanged g (some 1) ∧ g.parent (some 1) = some 6) ∧
    ∃ copy g, (Editing.clone (some 1) (some 2)).run (Command.perform Command.nested).1 =
        .ok copy g ∧
      g.Unchanged (Command.resume g
        [(4, .construct (.name 0 "b")), (0, .edit (.setChild .condition (some 6) (some 8)))])
        (some 1) := by
  have reached := reached_perform Command.nested
  refine ⟨⟨_, rfl, (Reached.tree_unchanged reached).1 (some 1) _ (by decide +kernel) ?_,
    by decide +kernel⟩, ?_⟩
  · simp only [List.forall_mem_cons]
    exact ⟨⟨nofun, by decide +kernel, by decide +kernel⟩,
      ⟨nofun, by decide +kernel, by decide +kernel⟩, nofun⟩
  · have clonable : (Command.perform Command.nested).1.Clonable (some 1) (some 2) :=
      ⟨by decide +kernel, .inr (by decide +kernel), by decide +kernel⟩
    obtain ⟨g, run, t⟩ := reached.tended.linked.run_clone clonable
    refine ⟨_, g, run, ((Reached.tree_unchanged reached).2 _ _ _ _ _ run (by simp)).1 ?_⟩
    have inside : 6 ∈ g.preorder (some (Command.perform Command.nested).1.size) := by
      rw [t.preorder_copy reached.tended.linked clonable.node]
      decide +kernel
    have new : ¬ g.contains (some 8) := by
      rw [Forest.contains_some, t.size]
      decide +kernel
    simp [Command.changed, Command.moved, Edit.node, Edit.moved, Edit.children, inside, new]

end SyntaxForest
