import SyntaxForest.Proofs.Ending
import SyntaxForest.Proofs.Runs

/-!
# The two views of a forest

Slots and lists say what is below a node, parents say what is above it, and the two are stored
apart.  Where every parent stores its children the two views are one: a tree lists exactly the
nodes that it is an ancestor of, each once, and a tree is as high as its deepest node is deep.

* `Forest.Agreeing` — what it means that the two views agree;
* `Linked.height_eq_depth` — height counts downwards what depth counts upwards;
* `Tended.path_of_iterate`, `Linked.root_spec` — the way up is a way down, and its end is a root;
* `Tended.agreeing`, `Command.agreeing_perform` — the agreement, in general and for runs.

Height needs only that whatever is stored has its parent.  Everything else rests on the converse,
which fails for a clone that is under a parent and that no edit has stored since.
-/

namespace SyntaxForest

/-! ## Levels and depths -/

namespace Traversal

variable {β : Type} {below : β → List β}

theorem self_mem_unfolding (room : Nat) (x : β) : x ∈ unfolding below room x := by
  cases room <;> simp [unfolding]

/-- If depth grows by one on every way down, the levels from `x` down are bounded as the depths of
what is listed below `x`. -/
theorem levels_le_iff (depth : β → Nat) (grows : ∀ x, ∀ y ∈ below x, depth y = depth x + 1)
    (room bound : Nat) (x : β) : levels below room x ≤ bound + 1 ↔
      ∀ y ∈ unfolding below room x, depth y ≤ depth x + bound := by
  induction room generalizing bound x with
  | zero => simp [levels, unfolding]
  | succ room ih =>
    have here : depth x ≤ depth x + bound := Nat.le_add_right ..
    simp only [levels_succ_le_iff, unfolding, List.forall_mem_cons, here, true_and,
      List.forall_mem_flatMap]
    refine forall₂_congr fun y hy => ?_
    cases bound with
    | zero =>
      have := levels_pos below room y
      have := grows x y hy
      refine ⟨fun none => by omega, fun none => ?_⟩
      have := none y (self_mem_unfolding room y)
      omega
    | succ bound =>
      rw [ih, grows x y hy]
      exact forall₂_congr fun z _ => by omega

end Traversal

namespace Forest

variable {f : Forest}

/-! ## What agreement means -/

/-- The nodes without a parent. -/
def roots (f : Forest) : List NodeIndex :=
  (List.range f.size).filter fun x => f.parent (some x) = none

theorem mem_roots {r : NodeIndex} :
    r ∈ f.roots ↔ f.contains (some r) ∧ f.parent (some r) = none := by
  rw [roots, List.mem_filter, List.mem_range, ← contains_some, decide_eq_true_iff]

/-- What slots and lists say of the trees is what parents say of them. -/
structure Agreeing (f : Forest) : Prop where
  /-- A tree lists a node once if it is the tree of the node or of an ancestor, and else never. -/
  count_preorder : ∀ {r x}, f.contains (some r) → f.contains (some x) →
    (f.preorder (some r)).count x = if x = r ∨ r ∈ f.ancestors (some x) then 1 else 0
  /-- A node has one root, and it is the only node without a parent whose tree lists the node. -/
  root : ∀ {x}, f.contains (some x) → ∃ r, f.root (some x) = some r ∧
    ∀ r', r' ∈ f.roots ∧ x ∈ f.preorder (some r') ↔ r' = r
  /-- The trees of the nodes without a parent list every node of the forest once. -/
  partition : (f.roots.flatMap fun r => f.preorder (some r)).Perm (List.range f.size)
  /-- A tree is as high as the deepest node in it is deep, counted from the root. -/
  height : ∀ {r}, f.contains (some r) →
    (∀ x ∈ f.preorder (some r), f.depth (some r) ≤ f.depth (some x)) ∧
    f.height (some r) = 1 +
      ((f.preorder (some r)).map fun x => f.depth (some x) - f.depth (some r)).foldl max 0

namespace Linked

variable (hf : f.Linked)
include hf

/-! ## Depth -/

theorem depth_of_mem_below {x y : NodeIndex} (hy : y ∈ f.below x) :
    f.depth (some y) = f.depth (some x) + 1 :=
  depth_of_parent hf.grounded hf.parents hf.intact (hf.parent_of_mem hy)

theorem depth_le_of_path {x y : NodeIndex}
    (path : Relation.ReflTransGen (fun a b => b ∈ f.below a) x y) :
    f.depth (some x) ≤ f.depth (some y) := by
  induction path with
  | refl => exact Nat.le_refl _
  | tail _ step ih => exact Nat.le_trans ih (hf.depth_of_mem_below step ▸ Nat.le_succ _)

/-- **A tree is as high as its deepest node is deep.** -/
theorem height_eq_depth {x : NodeIndex} (hx : f.contains (some x)) : f.height (some x) = 1 +
    ((f.preorder (some x)).map fun y => f.depth (some y) - f.depth (some x)).foldl max 0 := by
  rw [height_some, if_pos hx, Nat.add_comm]
  have counted (bound : Nat) : Traversal.levels f.below f.size x ≤ bound + 1 ↔
      ((f.preorder (some x)).map fun y => f.depth (some y) - f.depth (some x)).foldl max 0 ≤
        bound := by
    have deeper (y z : NodeIndex) (hz : z ∈ f.below y) := hf.depth_of_mem_below hz
    rw [Traversal.levels_le_iff (fun y => f.depth (some y)) deeper,
      Traversal.foldl_max_le_iff, preorder_some hx]
    simp only [Nat.zero_le, true_and, Nat.sub_le_iff_le_add']
  have positive := Traversal.levels_pos f.below f.size x
  refine Nat.le_antisymm ((counted _).mpr (Nat.le_refl _)) ?_
  rw [← Nat.sub_add_cancel positive, Nat.add_le_add_iff_right, ← counted]
  omega

/-! ## The root of a node -/

/-- Following parents from a node ends at its root. -/
theorem root_spec (x : NodeIndex) : ∃ n r, f.parent^[n] (some x) = some r ∧
    f.root (some x) = some r ∧ f.parent (some r) = none := by
  obtain ⟨n, ended, met⟩ := hf.ancestors_end (some x)
  have last := congrArg List.getLast? met
  rw [List.getLast?_map, List.getLast?_map] at last
  cases n with
  | zero =>
    rw [List.range_zero, List.getLast?_nil, Option.map_none, Option.map_eq_none_iff] at last
    exact ⟨0, x, rfl, by rw [root, last, Option.none_or], ended⟩
  | succ n =>
    rw [List.range_succ, List.getLast?_concat, Option.map_some, Option.map_eq_some_iff] at last
    obtain ⟨r, last, reached⟩ := last
    refine ⟨n + 1, r, reached.symm, by rw [root, last, Option.some_or], ?_⟩
    rw [reached]
    exact (Function.iterate_succ_apply' ..).symm.trans ended

/-- A way up that ends without a parent leads to the root. -/
theorem root_eq_of_iterate {x r : NodeIndex} {n : Nat} (path : f.parent^[n] (some x) = some r)
    (top : f.parent (some r) = none) : f.root (some x) = some r := by
  obtain ⟨m, r', path', hroot, top'⟩ := hf.root_spec x
  have ended : f.parent^[n + 1] (some x) = none := by rw [Function.iterate_succ_apply', path, top]
  have ended' : f.parent^[m + 1] (some x) = none := by
    rw [Function.iterate_succ_apply', path', top']
  have same : m = n := by
    rcases Nat.lt_trichotomy m n with less | same | more
    · exact absurd (path.symm.trans (iterate_parent_of_le ended' less)) nofun
    · exact same
    · exact absurd (path'.symm.trans (iterate_parent_of_le ended more)) nofun
  rw [hroot, ← path', same, path]

end Linked

/-! ## Upwards and downwards -/

namespace Tended

variable (hf : f.Tended [])
include hf

/-- Where every parent stores its children, each way up is a way down. -/
theorem path_of_iterate {x y : NodeIndex} {n : Nat} (h : f.parent^[n] (some y) = some x) :
    Relation.ReflTransGen (fun a b => b ∈ f.below a) x y := by
  induction n generalizing y with
  | zero =>
    cases h
    exact .refl
  | succ n ih =>
    rw [Function.iterate_succ_apply] at h
    cases hp : f.parent (some y) with
    | none => simp [hp] at h
    | some p =>
      rw [hp] at h
      exact (ih h).tail ((hf.mem_children_iff hp).mpr List.not_mem_nil)

/-- A tree lists whatever reaches its root by parents. -/
theorem mem_preorder_iff_iterate {r x : NodeIndex} (hr : f.contains (some r)) :
    x ∈ f.preorder (some r) ↔ ∃ n, f.parent^[n] (some x) = some r := by
  rw [hf.linked.mem_preorder_iff hr]
  exact ⟨hf.linked.iterate_of_path, fun ⟨_, h⟩ => hf.path_of_iterate h⟩

/-- **A tree lists exactly the nodes that its root is an ancestor of, and the root.** -/
theorem mem_preorder_iff_ancestors {r x : NodeIndex} (hr : f.contains (some r)) :
    x ∈ f.preorder (some r) ↔ x = r ∨ r ∈ f.ancestors (some x) := by
  rw [hf.mem_preorder_iff_iterate hr,
    mem_ancestors hf.linked.grounded hf.linked.parents hf.linked.intact]
  constructor
  · rintro ⟨n, path⟩
    cases n with
    | zero => exact .inl (Option.some.inj path)
    | succ n => exact .inr ⟨n, path⟩
  · rintro (rfl | ⟨n, path⟩)
    · exact ⟨0, rfl⟩
    · exact ⟨n + 1, path⟩

/-- **A node is in the tree of its root, and of no other node without a parent.** -/
theorem mem_preorder_iff_root {r x : NodeIndex} (hr : r ∈ f.roots) :
    x ∈ f.preorder (some r) ↔ f.root (some x) = some r := by
  obtain ⟨hr, top⟩ := mem_roots.mp hr
  rw [hf.mem_preorder_iff_iterate hr]
  constructor
  · rintro ⟨n, path⟩
    exact hf.linked.root_eq_of_iterate path top
  · intro hroot
    obtain ⟨n, r', path, hroot', -⟩ := hf.linked.root_spec x
    rw [hroot'] at hroot
    exact ⟨n, path.trans hroot⟩

theorem exists_root {x : NodeIndex} (hx : f.contains (some x)) :
    ∃ r ∈ f.roots, f.root (some x) = some r := by
  obtain ⟨n, r, path, hroot, top⟩ := hf.linked.root_spec x
  refine ⟨r, mem_roots.mpr ⟨?_, top⟩, hroot⟩
  cases n with
  | zero =>
    cases path
    exact hx
  | succ n =>
    rw [Function.iterate_succ_apply'] at path
    exact hf.linked.parents path

/-- The trees of the nodes without a parent share no node. -/
theorem nodup_trees : (f.roots.flatMap fun r => f.preorder (some r)).Nodup := by
  have distinct : f.roots.Nodup := List.nodup_range.filter _
  refine List.nodup_flatMap.mpr ⟨fun r _ => hf.linked.nodup_preorder (some r), ?_⟩
  refine distinct.imp_of_mem fun {r r'} hr hr' differ x hx hx' => differ ?_
  rw [hf.mem_preorder_iff_root hr] at hx
  rw [hf.mem_preorder_iff_root hr', hx] at hx'
  exact Option.some.inj hx'

/-- **Where every parent stores its children, the two views agree.** -/
theorem agreeing : f.Agreeing := by
  constructor
  · intro r x hr _
    rw [(hf.linked.nodup_preorder (some r)).count]
    simp only [hf.mem_preorder_iff_ancestors hr]
  · intro x hx
    obtain ⟨r, hr, hroot⟩ := hf.exists_root hx
    refine ⟨r, hroot, fun r' => ⟨?_, ?_⟩⟩
    · rintro ⟨hr', listed⟩
      rw [hf.mem_preorder_iff_root hr', hroot] at listed
      exact (Option.some.inj listed).symm
    · rintro rfl
      exact ⟨hr, (hf.mem_preorder_iff_root hr).mpr hroot⟩
  · refine (List.perm_ext_iff_of_nodup hf.nodup_trees List.nodup_range).mpr fun x => ?_
    rw [List.mem_flatMap, List.mem_range, ← contains_some]
    constructor
    · rintro ⟨r, _, listed⟩
      exact hf.linked.contains_of_mem_preorder listed
    · intro hx
      obtain ⟨r, hr, hroot⟩ := hf.exists_root hx
      exact ⟨r, hr, (hf.mem_preorder_iff_root hr).mpr hroot⟩
  · intro r hr
    refine ⟨fun x listed => ?_, hf.linked.height_eq_depth hr⟩
    exact hf.linked.depth_le_of_path ((hf.linked.mem_preorder_iff hr).mp listed)

end Tended

end Forest

/-! ## Runs -/

namespace Command

/-- A command that puts no clone under a parent leaves nothing loose. -/
theorem loose_eq_nil {c : Command} (h : ∀ x parent, c = .clone x parent → parent = none)
    (answer : Option NodeIndex) : c.loose answer [] = [] := by
  cases c with
  | construct _ | edit _ | clear => rfl
  | clone x parent =>
    obtain rfl := h x parent rfl
    rfl

/-- **The two views agree after every run that puts no clone under a parent.**  Commands may fail;
constructions, edits of every kind, clones without a parent and clearing may come in any order. -/
theorem agreeing_perform (steps : List (Nat × Command))
    (h : ∀ step ∈ steps, ∀ x parent, step.2 = .clone x parent → parent = none) :
    (perform steps).1.Agreeing := by
  have tied (steps : List (Nat × Command))
      (h : ∀ step ∈ steps, ∀ x parent, step.2 = .clone x parent → parent = none) (f : Forest) :
      (steps.foldl advance (f, [])).2 = [] := by
    induction steps generalizing f with
    | nil => rfl
    | cons step steps ih =>
      rw [List.forall_mem_cons] at h
      rw [List.foldl_cons, advance]
      cases (step.2.run step.1).run f with
      | ok answer g =>
        simp only [loose_eq_nil h.1 answer]
        exact ih h.2 g
      | error _ g => exact ih h.2 g
  have tended := (reached_perform steps).tended
  rw [show (perform steps).2 = [] from tied steps h Forest.empty] at tended
  exact tended.agreeing

/-- A block that a clone of it stands beside. -/
theorem agreeing_beside :
    (∀ step ∈ nested.dropLast ++ [(0, .clone (some 0) none)], ∀ x parent,
      step.2 = .clone x parent → parent = none) ∧
    (perform (nested.dropLast ++ [(0, .clone (some 0) none)])).1.Agreeing ∧
    (perform (nested.dropLast ++ [(0, .clone (some 0) none)])).1.roots = [0, 3] := by
  have beside : ∀ step ∈ nested.dropLast ++ [(0, .clone (some 0) none)], ∀ x parent,
      step.2 = .clone x parent → parent = none := by
    simp [nested]
  exact ⟨beside, agreeing_perform _ beside, by decide +kernel⟩

/-- A clone that its parent does not store is below a node that does not list it. -/
example : 1 ∈ (perform nested).1.ancestors (some 3) ∧ 3 ∉ (perform nested).1.preorder (some 1) := by
  decide +kernel

end Command

end SyntaxForest
