import Mathlib.Data.List.Forall2
import SyntaxForest.Proofs.Room

/-!
# Trees as values

The trees of a forest are spread over its nodes, and a walk goes from place to place.  Here a tree
is a value, a label with the trees below it, so that two trees can be equal wherever they stand and
a recursion over a tree needs no bound.

* `Rose.fold` — recursion from the leaves up, with `Rose.fold_node` as its one equation;
* `Rose.arities_injective` — a tree can be read back from its labels in pre-order, if each comes
  with the number of trees below it;
* `Traversal.gather` — the tree that a walk goes over.  With room enough the walk lists its labels
  (`arities_gather`) and counts its levels (`height_gather`).

What makes the reading unique is that a number of trees says where the last of them ends.  So a tree
can be read from the front of a sequence whatever follows (`Rose.legible`), and it is this statement
that goes through by induction.
-/

namespace SyntaxForest

/-- A tree as a value: a label, and the trees below it from first to last. -/
inductive Rose (α : Type) where
  | node (label : α) (below : List (Rose α))

namespace Rose

variable {α γ : Type}

mutual

/-- Work from the leaves up: each label is put together with what has come of the trees below. -/
def fold (step : α → List γ → γ) : Rose α → γ
  | .node label below => step label (foldAll step below)
termination_by structural t => t

/-- Work on some trees, each by itself. -/
def foldAll (step : α → List γ → γ) : List (Rose α) → List γ
  | [] => []
  | t :: ts => fold step t :: foldAll step ts
termination_by structural ts => ts

end

theorem foldAll_eq_map (step : α → List γ → γ) (ts : List (Rose α)) :
    foldAll step ts = ts.map (fold step) := by
  induction ts with
  | nil => rfl
  | cons t ts ih => rw [foldAll, ih, List.map_cons]

@[simp] theorem fold_node (step : α → List γ → γ) (label : α) (below : List (Rose α)) :
    fold step (.node label below) = step label (below.map (fold step)) := by
  rw [fold, foldAll_eq_map]

/-- What holds of a tree whenever it holds of the trees below holds of every tree. -/
theorem induction {P : Rose α → Prop}
    (node : ∀ label below, (∀ t ∈ below, P t) → P (.node label below)) (t : Rose α) : P t :=
  Rose.rec (motive_1 := P) (motive_2 := fun ts => ∀ t ∈ ts, P t) node (by simp)
    (fun _ _ first rest => List.forall_mem_cons.mpr ⟨first, rest⟩) t

/-- The number of levels, one for a leaf. -/
def height : Rose α → Nat := fold fun _ heights => heights.foldl max 0 + 1

/-- The labels in pre-order, each with the number of trees below it. -/
def arities : Rose α → List (α × Nat) :=
  fold fun label parts => (label, parts.length) :: parts.flatten

theorem arities_node (label : α) (below : List (Rose α)) :
    (node label below).arities = (label, below.length) :: below.flatMap arities := by
  rw [arities, fold_node, List.length_map, List.flatMap_def]

/-- What stands at the front of a sequence is this tree or nothing else. -/
def Legible (t : Rose α) : Prop := ∀ (u : Rose α) (rest rest' : List (α × Nat)),
  t.arities ++ rest = u.arities ++ rest' → t = u ∧ rest = rest'

/-- Some trees can be read one after the other if their number is known. -/
theorem eq_of_flatMap_arities_append {ts us : List (Rose α)} (each : ∀ t ∈ ts, t.Legible)
    (count : ts.length = us.length) {rest rest' : List (α × Nat)}
    (same : ts.flatMap arities ++ rest = us.flatMap arities ++ rest') :
    ts = us ∧ rest = rest' := by
  induction ts generalizing us with
  | nil =>
    obtain rfl := List.length_eq_zero_iff.mp count.symm
    exact ⟨rfl, same⟩
  | cons t ts ih =>
    cases us with
    | nil => cases count
    | cons u us =>
      rw [List.flatMap_cons, List.flatMap_cons, List.append_assoc, List.append_assoc] at same
      obtain ⟨first, others⟩ := List.forall_mem_cons.mp each
      obtain ⟨rfl, behind⟩ := first u _ _ same
      obtain ⟨rfl, rfl⟩ := ih others (Nat.succ.inj count) behind
      exact ⟨rfl, rfl⟩

/-- **Every tree can be read from the front of a sequence.** -/
theorem legible (t : Rose α) : t.Legible := by
  induction t using induction with
  | node label below ih =>
    rintro ⟨label', below'⟩ rest rest' same
    simp only [arities_node, List.cons_append, List.cons.injEq, Prod.mk.injEq] at same
    obtain ⟨⟨rfl, count⟩, same⟩ := same
    obtain ⟨rfl, rfl⟩ := eq_of_flatMap_arities_append ih count same
    exact ⟨rfl, rfl⟩

/-- **Labels in pre-order with numbers of trees below determine a tree.** -/
theorem arities_injective : Function.Injective (arities (α := α)) := by
  intro t u same
  exact (t.legible u [] [] (congrArg (· ++ []) same)).1

end Rose

namespace Traversal

variable {α β : Type} {below : β → List β} {label : β → α}

/-- The tree of labels from `x` down, with room for a number of levels below it. -/
def gather (below : β → List β) (label : β → α) : Nat → β → Rose α
  | 0, x => .node (label x) []
  | room + 1, x => .node (label x) ((below x).map (gather below label room))

/-- The tree has as many levels as are found. -/
theorem height_gather (room : Nat) (x : β) :
    (gather below label room x).height = levels below room x := by
  induction room generalizing x with
  | zero => simp [gather, Rose.height, levels]
  | succ room ih =>
    have each : Rose.fold (fun _ heights => heights.foldl max 0 + 1) ∘ gather below label room =
        levels below room := funext ih
    rw [gather, Rose.height, Rose.fold_node, List.map_map, each, levels]

section

variable {rank : β → Nat} (descends : ∀ x, ∀ y ∈ below x, rank y < rank x)
include descends

/-- With room for the rank of `x`, its tree is its label and the trees from directly below. -/
theorem gather_eq {room : Nat} {x : β} (h : rank x ≤ room) :
    gather below label room x = .node (label x) ((below x).map (gather below label room)) := by
  induction room generalizing x with
  | zero => rw [gather, below_eq_nil descends (Nat.le_zero.mp h), List.map_nil]
  | succ room ih =>
    rw [gather]
    refine congrArg (Rose.node (label x)) (List.map_congr_left fun y hy => ?_)
    have lower := descends x y hy
    rw [ih (by omega), gather]

/-- With room for the rank of `x`, the unfolding lists the labels of the tree. -/
theorem arities_gather {room : Nat} {x : β} (h : rank x ≤ room) :
    (gather below label room x).arities =
      (unfolding below room x).map fun y => (label y, (below y).length) := by
  induction room generalizing x with
  | zero =>
    rw [gather, unfolding, Rose.arities_node, List.map_singleton,
      below_eq_nil descends (Nat.le_zero.mp h)]
    rfl
  | succ room ih =>
    rw [gather, unfolding, Rose.arities_node, List.map_cons, List.length_map, List.flatMap_map,
      List.map_flatMap]
    refine congrArg ((label x, (below x).length) :: ·) (List.flatMap_congr fun y hy => ih ?_)
    have lower := descends x y hy
    omega

end

end Traversal

end SyntaxForest
