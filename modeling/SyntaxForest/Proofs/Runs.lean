import SyntaxForest.Proofs.Cloned
import SyntaxForest.Proofs.Upkeep
import SyntaxForest.Session

/-!
# Runs of commands

`Reached` says which forests come about by commands from a forest without nodes, the commands that
fail included.  `Command.run_cases` says once what a command can do to a linked forest: fail and
leave it, or have one of five effects.  All that is known of runs is read off these effects.

A forest that was reached is linked, and almost every parent stores its children.  The exceptions
are clones that were put under a parent: the clone names the parent, but the parent knows nothing of
it until an edit stores it.  A run keeps the list of these clones, and `Tended` says that they are
exactly the nodes that their parents do not store.
-/

namespace SyntaxForest

variable {f g : Forest}

/-! ## What a command can do -/

/-- The attachment that a record has already, if the mark is to attach it. -/
def Mark.frozenIn? : Mark → NodeRecord → Option Attachment
  | .attach attachment _, r => if (r.attachment attachment).isSome then some attachment else none
  | _, _ => none

namespace Edit

theorem run_write (s : Scalar) (node : Link) : (Editing.write s node).run f =
    match f.contentsOf s.owner node with
    | .error err => .error err f
    | .ok c =>
      if s.isFrozenIn c then .error (.valueAlreadySet c.kind .token) f
      else .ok () (f.setContents node (s.write c)) := by
  unfold Editing.write
  simp only [EStateM.run_bind, Editing.run_ask]
  cases f.contentsOf s.owner node with
  | error err => rfl
  | ok c => cases hfrozen : s.isFrozenIn c <;> simp only [hfrozen] <;> rfl

theorem run_setRange (node : Link) (pos len : Int32) : (Editing.setRange node pos len).run f =
    match f.header node with
    | .error err => .error err f
    | .ok _ => .ok () (f.setRange node pos len) := by
  unfold Editing.setRange
  simp only [EStateM.run_bind, Editing.run_ask]
  cases f.header node <;> rfl

theorem run_mark (m : Mark) (node : Link) : (Editing.mark m node).run f =
    match f.record? node with
    | none => .error (.unknownNode node) f
    | some r =>
      match m.frozenIn? r with
      | some attachment => .error (.annotationsFrozen node attachment) f
      | none => .ok () (f.modifyRecord node m.write) := by
  unfold Editing.mark
  simp only [EStateM.run_bind, EStateM.run_get]
  cases f.record? node with
  | none => rfl
  | some r =>
    cases m with
    | attach attachment records =>
      cases hr : (r.attachment attachment).isSome <;> simp only [Mark.frozenIn?, hr] <;> rfl
    | _ => rfl

/-- What an edit of a value, a mark or a range makes of a forest, and on which condition. -/
inductive Written (f : Forest) : Edit → Forest → Prop where
  | write {s : Scalar} {node : Link} {c : Contents} (hc : f.contents? node = some c)
    (free : s.isFrozenIn c = false) : Written f (.write s node) (f.setContents node (s.write c))
  | mark {m : Mark} {node : Link} {r : NodeRecord} (hr : f.record? node = some r)
    (free : m.frozenIn? r = none) : Written f (.mark m node) (f.modifyRecord node m.write)
  | setRange {node : Link} {pos len : Int32} :
    Written f (.setRange node pos len) (f.setRange node pos len)

/-- Values, marks and ranges leave the trees. -/
theorem Written.sameTrees (hf : f.Intact) {e : Edit} (w : Written f e g) : f.SameTrees g := by
  cases w with
  | write hc _ => exact hf.sameTrees_write _ hc
  | mark _ _ => exact hf.sameTrees_mark ..
  | setRange => exact hf.sameTrees_setRange ..

/-- An edit that writes no part fails without a trace, or writes one value. -/
theorem run_cases_of_value {e : Edit} (he : e.part? = none) :
    (∃ err, e.run.run f = .error err f) ∨ ∃ g, e.run.run f = .ok () g ∧ Written f e g := by
  cases e with
  | setChild _ _ _ | setList _ _ _ | append _ _ _ => cases he
  | write s node =>
    rw [run, run_write]
    cases hc : f.contentsOf s.owner node with
    | error err => exact Or.inl ⟨err, rfl⟩
    | ok c =>
      cases free : s.isFrozenIn c with
      | true => exact Or.inl ⟨.valueAlreadySet c.kind .token, if_pos free⟩
      | false =>
        have held := (Forest.contentsOf_eq_ok_iff.mp hc).1
        exact Or.inr ⟨_, if_neg (Bool.eq_false_iff.mp free), .write held free⟩
  | mark m node =>
    rw [run, run_mark]
    cases hr : f.record? node with
    | none => exact Or.inl ⟨_, rfl⟩
    | some r =>
      cases free : m.frozenIn? r with
      | some attachment => exact Or.inl ⟨.annotationsFrozen node attachment, by simp only [free]⟩
      | none => exact Or.inr ⟨_, by simp only [free], .mark hr free⟩
  | setRange node pos len =>
    rw [run, run_setRange]
    cases f.header node with
    | error err => exact Or.inl ⟨err, rfl⟩
    | ok _ => exact Or.inr ⟨_, rfl, .setRange⟩

/-- An edit that writes no part and succeeds has written one value. -/
theorem written_of_run_ok {e : Edit} (he : e.part? = none) (run : e.run.run f = .ok () g) :
    Written f e g := by
  rcases run_cases_of_value (f := f) he with ⟨err, failed⟩ | ⟨g', done, w⟩
  · cases failed.symm.trans run
  · cases done.symm.trans run
    exact w

end Edit

namespace Command

/-- What a command does to a forest when it succeeds, and what it answers. -/
inductive Effect (f : Forest) : Command → Option NodeIndex → Forest → Prop where
  | construct (id : Nat) (c : Construction) :
    Effect f (.construct c) (some f.size) (f.construct id c)
  | part {g : Forest} {e : Edit} {part : Part} (hpart : e.part? = some part)
    (legal : e.Legal f part) (t : e.Transfer f g part) : Effect f (.edit e) none g
  | value {g : Forest} {e : Edit} (hpart : e.part? = none) (w : Edit.Written f e g) :
    Effect f (.edit e) none g
  | clone {g : Forest} {source : NodeIndex} {parent : Link}
    (clonable : f.Clonable (some source) parent) (t : f.Cloned g source parent) :
    Effect f (.clone (some source) parent) (some f.size) g
  | clear : Effect f .clear none Forest.empty

/-- **A command fails and leaves a linked forest as it is, or it has one of five effects.** -/
theorem run_cases (hf : f.Linked) (id : Nat) (c : Command) :
    (∃ err, (c.run id).run f = .error err f) ∨
      ∃ answer g, (c.run id).run f = .ok answer g ∧ Effect f c answer g := by
  cases c with
  | construct c => exact Or.inr ⟨_, _, rfl, .construct id c⟩
  | edit e =>
    have refused {err : TreeError} (h : e.run.run f = .error err f) :
        (run id (.edit e)).run f = .error err f := by
      rw [run, EStateM.run_bind, h]
    have done {g : Forest} (h : e.run.run f = .ok () g) :
        (run id (.edit e)).run f = .ok none g := by
      rw [run, EStateM.run_bind, h]
      rfl
    cases hpart : e.part? with
    | none =>
      rcases Edit.run_cases_of_value hpart with ⟨err, h⟩ | ⟨g, h, w⟩
      · exact Or.inl ⟨err, refused h⟩
      · exact Or.inr ⟨none, g, done h, .value hpart w⟩
    | some part =>
      cases hd : e.demands f with
      | error err => exact Or.inl ⟨err, refused (Edit.run_of_demands_error hd)⟩
      | ok =>
        have legal := (Edit.demands_eq_ok_iff hf.intact hpart).mp hd
        obtain ⟨g, h, t⟩ := Edit.exists_transfer hf hpart legal
        exact Or.inr ⟨none, g, done h, .part hpart legal t⟩
  | clone x parent =>
    by_cases clonable : f.Clonable x parent
    · cases x with
      | none => exact absurd clonable.node (by simp)
      | some source =>
        obtain ⟨g, h, t⟩ := hf.run_clone clonable
        refine Or.inr ⟨some f.size, g, ?_, .clone clonable t⟩
        rw [run, EStateM.run_bind, h]
        rfl
    · obtain ⟨err, h⟩ := Forest.run_clone_of_not_clonable clonable
      refine Or.inl ⟨err, ?_⟩
      rw [run, EStateM.run_bind, h]
  | clear => exact Or.inr ⟨none, Forest.empty, rfl, .clear⟩

/-- A command that fails leaves the forest. -/
theorem eq_of_run_error (hf : f.Linked) {id : Nat} {c : Command} {err : TreeError}
    (h : (c.run id).run f = .error err g) : g = f := by
  rcases run_cases hf id c with ⟨err', h'⟩ | ⟨answer, g', h', -⟩
  · cases h.symm.trans h'
    rfl
  · cases h.symm.trans h'

/-- A command that succeeds has an effect. -/
theorem effect_of_run_ok (hf : f.Linked) {id : Nat} {c : Command} {answer : Option NodeIndex}
    (h : (c.run id).run f = .ok answer g) : Effect f c answer g := by
  rcases run_cases hf id c with ⟨err', h'⟩ | ⟨answer', g', h', effect⟩
  · cases h.symm.trans h'
  · cases h.symm.trans h'
    exact effect

/-- Every effect leads from linked forests to linked forests. -/
theorem Effect.linked (hf : f.Linked) {c : Command} {answer : Option NodeIndex}
    (effect : Effect f c answer g) : g.Linked := by
  cases effect with
  | construct id c => exact Forest.Linked.construct hf id c
  | part hpart legal t => exact hf.of_transfer hpart legal t
  | value _ w => exact hf.congr (w.sameTrees hf.intact)
  | clone clonable t => exact hf.of_cloned t clonable
  | clear => exact Forest.linked_empty

/-- The clones that were put under a parent and that no edit has stored since: the list of them
after a command has succeeded with an answer. -/
def loose (answer : Option NodeIndex) (before : List NodeIndex) : Command → List NodeIndex
  | .construct _ | .clone _ none => before
  | .edit e => before.filter (· ∉ e.moved)
  | .clone _ (some _) => answer.toList ++ before
  | .clear => []

end Command

/-- The forests that come about by commands from a forest without nodes, with the clones that were
put under a parent and not stored since. -/
inductive Reached : Forest → List NodeIndex → Prop where
  | start : Reached Forest.empty []
  | done {f g : Forest} {loose : List NodeIndex} {answer : Option NodeIndex} (id : Nat)
    (c : Command) : Reached f loose → (c.run id).run f = .ok answer g →
    Reached g (c.loose answer loose)
  | failed {f g : Forest} {loose : List NodeIndex} {err : TreeError} (id : Nat)
    (c : Command) : Reached f loose → (c.run id).run f = .error err g → Reached g loose

namespace Command

/-- Perform a command and note what is loose; a command that fails goes as far as it goes. -/
def advance (state : Forest × List NodeIndex) (step : Nat × Command) :
    Forest × List NodeIndex :=
  match (step.2.run step.1).run state.1 with
  | .ok answer g => (g, step.2.loose answer state.2)
  | .error _ g => (g, state.2)

/-- Perform some commands, each under an identity of its own, on a forest without nodes. -/
def perform (steps : List (Nat × Command)) : Forest × List NodeIndex :=
  steps.foldl advance (Forest.empty, [])

end Command

/-- A clone leads to a forest that is reached. -/
theorem Reached.clone {loose : List NodeIndex} (h : Reached f loose) {x parent : Link}
    {copy : NodeIndex} (run : (Editing.clone x parent).run f = .ok copy g) :
    ∃ loose', Reached g loose' := by
  have performed : ((Command.clone x parent).run 0).run f = .ok (some copy) g := by
    rw [Command.run, EStateM.run_bind, run]
    rfl
  exact ⟨_, .done 0 _ h performed⟩

/-- **What is reached is what comes of performing commands.** -/
theorem reached_iff {loose : List NodeIndex} :
    Reached f loose ↔ ∃ steps, Command.perform steps = (f, loose) := by
  constructor
  · intro h
    induction h with
    | start => exact ⟨[], rfl⟩
    | done id c _ run ih | failed id c _ run ih =>
      obtain ⟨steps, hsteps⟩ := ih
      refine ⟨steps ++ [(id, c)], ?_⟩
      rw [Command.perform, List.foldl_append, ← Command.perform, hsteps, List.foldl_cons,
        List.foldl_nil, Command.advance, run]
  · rintro ⟨steps, hsteps⟩
    have onward (steps : List (Nat × Command)) (state : Forest × List NodeIndex)
        (h : Reached state.1 state.2) :
        Reached (steps.foldl Command.advance state).1 (steps.foldl Command.advance state).2 := by
      induction steps generalizing state with
      | nil => exact h
      | cons step steps ih =>
        refine ih _ ?_
        unfold Command.advance
        cases run : (step.2.run step.1).run state.1 with
        | ok answer g => exact .done step.1 step.2 h run
        | error err g => exact .failed step.1 step.2 h run
    have reached := onward steps (Forest.empty, []) .start
    rw [← Command.perform, hsteps] at reached
    exact reached

theorem reached_perform (steps : List (Nat × Command)) :
    Reached (Command.perform steps).1 (Command.perform steps).2 :=
  reached_iff.mpr ⟨steps, rfl⟩

/-- A block around a loop around a name, and a clone of it under the loop.  The run has an edit that
is refused, and the parent of the clone lies inside the source. -/
def Command.nested : List (Nat × Command) :=
  [(1, .construct (.node .block 0 0)), (2, .construct (.node .whileLoop 0 0)),
    (3, .construct (.name 0 "a")), (0, .edit (.append .statements (some 0) (some 1))),
    (0, .edit (.setChild .condition (some 1) (some 2))),
    (0, .edit (.setChild .body (some 1) (some 0))), (0, .clone (some 0) (some 1))]

/-- The same, and then the loop is given an empty statement as its body. -/
def Command.finished : List (Nat × Command) :=
  Command.nested ++
    [(4, .construct (.node .emptyStatement 0 0)), (0, .edit (.setChild .body (some 1) (some 6)))]

namespace Forest

/-- Every parent stores its children, but for some nodes, which have a parent that does not store
them. -/
structure Tended (f : Forest) (loose : List NodeIndex) : Prop where
  linked : f.Linked
  exists_parent : ∀ x ∈ loose, ∃ p, f.parent (some x) = some p
  mem_children_iff : ∀ {x p}, f.parent (some x) = some p →
    (x ∈ f.children (some p) ↔ x ∉ loose)

theorem tended_empty : Forest.empty.Tended [] where
  linked := linked_empty
  exists_parent := by simp
  mem_children_iff := by
    intro x p hx
    cases hx

variable {loose : List NodeIndex}

/-- A forest with the same trees is tended alike. -/
theorem Tended.congr (h : f.Tended loose) (same : f.SameTrees g) : g.Tended loose where
  linked := h.linked.congr same
  exists_parent := by
    intro x hx
    rw [same.parent]
    exact h.exists_parent x hx
  mem_children_iff := by
    intro x p hx
    rw [same.parent] at hx
    rw [same.children]
    exact h.mem_children_iff hx

theorem Tended.construct (h : f.Tended loose) (id : Nat) (c : Construction) :
    (f.construct id c).Tended loose where
  linked := Linked.construct h.linked id c
  exists_parent := by
    intro x hx
    rw [parent_construct h.linked]
    exact h.exists_parent x hx
  mem_children_iff := by
    intro x p hx
    rw [parent_construct h.linked] at hx
    rw [children_construct h.linked]
    exact h.mem_children_iff hx

/-- An edit of a part ties up what it was passed. -/
theorem Tended.of_transfer (h : f.Tended loose) {e : Edit} {part : Part}
    (hpart : e.part? = some part) (legal : e.Legal f part) (t : e.Transfer f g part) :
    g.Tended (loose.filter (· ∉ e.moved)) where
  linked := h.linked.of_transfer hpart legal t
  exists_parent := by
    intro x hx
    rw [List.mem_filter, decide_eq_true_iff] at hx
    obtain ⟨hx, unmoved⟩ := hx
    obtain ⟨p, hp⟩ := h.exists_parent x hx
    refine ⟨p, ?_⟩
    rw [t.parent h.linked legal, if_neg fun hc => unmoved (Edit.mem_moved.mpr hc), if_neg, hp]
    -- the part can lose only what it stores, and its node does not store what is loose
    rintro ⟨hocc, -⟩
    have stored := mem_children_of_occupant part hocc
    rw [← h.linked.parent_of_mem stored, hp] at stored
    exact (h.mem_children_iff hp).mp stored hx
  mem_children_iff := by
    intro x p hp
    rw [List.mem_filter, decide_eq_true_iff]
    by_cases passed : some x ∈ e.children
    · obtain ⟨hparent, hmem⟩ := t.mem_children_of_passed h.linked hpart legal passed
      rw [← hp, hparent]
      exact iff_of_true hmem fun hx => hx.2 (Edit.mem_moved.mpr passed)
    · obtain ⟨hparent, hiff⟩ := t.mem_children_of_not_passed h.linked hpart legal passed hp
      rw [hiff, h.mem_children_iff hparent, and_iff_left fun hm => passed (Edit.mem_moved.mp hm)]

/-- After cloning, what was stored is stored, and copies are, but for the copy of the source. -/
theorem Cloned.mem_children_iff (h : f.Tended loose) {source : NodeIndex} {parent : Link}
    (clonable : f.Clonable (some source) parent) (t : f.Cloned g source parent) {x p : NodeIndex}
    (hp : g.parent (some x) = some p) :
    x ∈ g.children (some p) ↔ x ∉ loose ∧ x ≠ f.size := by
  have hf := h.linked
  have unborn {y : NodeIndex} (hy : f.contains (some y)) : y ≠ f.size := fun same =>
    ne_size_of_contains hy (congrArg some same)
  have known : g.contains (some x) := (hf.of_cloned t clonable).contains_of_parent hp
  rcases t.exists_of_contains hf known with old | ⟨y, hy, rfl⟩
  · rw [t.parent_old old] at hp
    rw [t.children_old (hf.parents hp), h.mem_children_iff hp, and_iff_left (unborn old)]
  · -- what is loose is an old node
    have tied : f.copyOf source y ∉ loose := by
      intro hloose
      obtain ⟨q, hq⟩ := h.exists_parent _ hloose
      have before := contains_some.mp (hf.contains_of_parent hq)
      exact Nat.not_lt.mpr (Nat.le_add_right ..) before
    have path := (hf.mem_preorder_iff clonable.node).mp hy
    rw [t.parent_copy hf hy] at hp
    rw [and_iff_right tied]
    rcases Relation.ReflTransGen.cases_tail path with rfl | ⟨z, hz, step⟩
    · rw [adopter_source] at hp
      have holder : f.contains (some p) := by
        rcases clonable.parent with none | known
        · rw [none] at hp
          cases hp
        · exact hp ▸ known
      rw [t.children_old holder, hf.copyOf_source clonable.node]
      exact iff_of_false (fun hmem => unborn (hf.contains_of_mem hmem) rfl) (· rfl)
    · have hz := (hf.mem_preorder_iff clonable.node).mpr hz
      rw [hf.adopter_of_mem clonable.node hz step] at hp
      rw [← hp, t.children_copy hz]
      refine iff_of_true (List.mem_map_of_mem step) fun first => ?_
      rw [← hf.copyOf_source clonable.node] at first
      exact hf.ne_source clonable.node hz step (copyOf_inj hy first)

/-- A clone that is put under a parent is loose. -/
theorem Tended.of_cloned (h : f.Tended loose) {source : NodeIndex} {parent : Link}
    (clonable : f.Clonable (some source) parent) (t : f.Cloned g source parent) :
    g.Tended (Command.loose (some f.size) loose (.clone (some source) parent)) where
  linked := h.linked.of_cloned t clonable
  exists_parent := by
    have old : ∀ x ∈ loose, ∃ p, g.parent (some x) = some p := by
      intro x hx
      obtain ⟨p, hp⟩ := h.exists_parent x hx
      exact ⟨p, (t.parent_old (h.linked.contains_of_parent hp)).trans hp⟩
    cases parent with
    | none => exact old
    | some q =>
      intro x hx
      rcases List.mem_append.mp hx with hx | hx
      · obtain rfl : x = f.size := by simpa using hx
        exact ⟨q, t.parent_root h.linked clonable.node⟩
      · exact old x hx
  mem_children_iff := by
    intro x p hp
    rw [t.mem_children_iff h clonable hp]
    cases parent with
    | none =>
      -- the copy of the source is a root, so it is not `x`
      apply and_iff_left
      rintro rfl
      rw [t.parent_root h.linked clonable.node] at hp
      cases hp
    | some q => simp [Command.loose, and_comm]

/-- **An effect changes what is loose as the run notes it.** -/
theorem Tended.of_effect (h : f.Tended loose) {c : Command} {answer : Option NodeIndex}
    (effect : Command.Effect f c answer g) : g.Tended (c.loose answer loose) := by
  cases effect with
  | construct id c => exact h.construct id c
  | part hpart legal t => exact h.of_transfer hpart legal t
  | @value _ e hpart w =>
    have nothing : loose.filter (· ∉ e.moved) = loose := by
      have none : e.moved = [] := by cases e <;> first | rfl | cases hpart
      rw [List.filter_eq_self, none]
      simp
    show g.Tended (loose.filter (· ∉ e.moved))
    rw [nothing]
    exact h.congr (w.sameTrees h.linked.intact)
  | clone clonable t => exact h.of_cloned clonable t
  | clear => exact tended_empty

end Forest

/-- **Every forest that was reached is tended.** -/
theorem Reached.tended {loose : List NodeIndex} (h : Reached f loose) : f.Tended loose := by
  induction h with
  | start => exact Forest.tended_empty
  | done id c _ run ih => exact ih.of_effect (Command.effect_of_run_ok ih.linked run)
  | failed id c _ run ih => exact Command.eq_of_run_error ih.linked run ▸ ih

end SyntaxForest
