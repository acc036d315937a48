import SyntaxForest.Proofs.Ending
import SyntaxForest.Proofs.RoseTrees
import SyntaxForest.Proofs.Runs

/-!
# Shapes

The shape of a tree is its tree of kinds.  `Forest.sameShape` compares two shapes in place, pair by
pair from a stack and with the last pair first; `Linked.sameShape_iff` says that it finds out
whether they are equal.  Whatever else is known of the comparison is known of equality.

A shape can also be told from the nodes in pre-order, if each comes with its kind and the number of
its children (`Forest.profile`).  That these sequences are equal only if the shapes are is unique
reading (`Rose.arities_injective`), and no part of the comparison.
-/

namespace SyntaxForest

open Traversal

namespace Forest

variable {f g : Forest} {x y : NodeIndex}

/-- The tree of kinds from a node down. -/
def shape (f : Forest) (x : NodeIndex) : Rose (Option Kind) :=
  gather f.below (fun y => f.kind? (some y)) f.size x

/-- The kinds of the nodes in pre-order, each with the number of children. -/
def profile (f : Forest) (x : NodeIndex) : List (Option Kind × Nat) :=
  (f.preorder (some x)).map fun y => (f.kind? (some y), (f.children (some y)).length)

/-- Equal lists of values, place by place. -/
theorem map_eq_map_iff_zip {α β γ : Type} {F : α → γ} {G : β → γ} {as : List α} {bs : List β} :
    as.map F = bs.map G ↔ as.length = bs.length ∧ ∀ pair ∈ as.zip bs, F pair.1 = G pair.2 := by
  rw [← List.forall₂_eq_eq_eq, List.forall₂_map_left_iff, List.forall₂_map_right_iff,
    List.forall₂_iff_zip]
  exact and_congr_right fun _ => ⟨fun h pair hpair => h hpair, fun h a b hab => h (a, b) hab⟩

namespace Linked

/-- A shape is a kind with the shapes of the children. -/
theorem shape_eq (hf : f.Linked) (x : NodeIndex) :
    f.shape x = .node (f.kind? (some x)) ((f.children (some x)).map f.shape) :=
  gather_eq hf.rank_lt (f.rank_le x)

/-- The profile of a tree is the sequence for its shape. -/
theorem arities_shape (hf : f.Linked) (hx : f.contains (some x)) :
    (f.shape x).arities = f.profile x := by
  rw [shape, arities_gather hf.rank_lt (f.rank_le x), profile, preorder_some hx]
  rfl

/-- Two nodes agree everywhere below them exactly if their shapes are equal. -/
theorem passes_agree_iff (hf : f.Linked) (hg : g.Linked) (x y : NodeIndex) :
    Passes (pairsBelow f g) (agree f g) (some x, some y) ↔ f.shape x = g.shape y := by
  induction hrank : f.rank x using Nat.strongRecOn generalizing x y with
  | ind rank ih =>
    have each (pair : NodeIndex × NodeIndex)
        (hpair : pair ∈ (f.children (some x)).zip (g.children (some y))) :
        Passes (pairsBelow f g) (agree f g) (some pair.1, some pair.2) ↔
          f.shape pair.1 = g.shape pair.2 := by
      have lower := hf.rank_lt x pair.1 (List.of_mem_zip hpair).1
      exact ih _ (hrank ▸ lower) pair.1 pair.2 rfl
    rw [passes_iff, hf.shape_eq, hg.shape_eq, Rose.node.injEq, map_eq_map_iff_zip, agree,
      Bool.and_eq_true, beq_iff_eq, beq_iff_eq, and_assoc]
    refine and_congr_right fun _ => and_congr_right fun _ => ?_
    -- the last pair comes first, which makes no difference to whether all of them agree
    simp only [pairsBelow, List.mem_reverse, List.forall_mem_map]
    exact forall₂_congr each

/-- **Comparing pair by pair decides whether two shapes are equal.** -/
theorem sameShape_iff (hf : f.Linked) (hg : g.Linked) (x y : NodeIndex) :
    f.sameShape (some x) g (some y) ↔ f.shape x = g.shape y := by
  rw [sameShape, everywhere_iff _ _ _ (hf.pairRank_lt hg) _ _ (pairRank_le f g _)]
  exact hf.passes_agree_iff hg x y

/-- The height of a tree is that of its shape. -/
theorem height_eq_shape (hx : f.contains (some x)) : f.height (some x) = (f.shape x).height := by
  rw [height_some, if_pos hx, shape, height_gather]

end Linked

end Forest

/-- **Comparing shapes decides equality of shapes.**  Take a node of each of two forests that were
reached.  The comparison answers yes exactly if the sequences of kinds and numbers of children in
pre-order are equal, and exactly if the trees of kinds are, which are defined by recursion over the
children.  So it is an equivalence, across any three forests, and trees of the same shape have the
same height and the same number of nodes. -/
theorem Reached.sameShape_decides {f g : Forest} {loose loose' : List NodeIndex}
    (hf : Reached f loose) (hg : Reached g loose') {x y : NodeIndex} (hx : f.contains (some x))
    (hy : g.contains (some y)) :
    (f.sameShape (some x) g (some y) ↔ f.profile x = g.profile y) ∧
    (f.sameShape (some x) g (some y) ↔ f.shape x = g.shape y) ∧
    (∀ z, f.shape z = .node (f.kind? (some z)) ((f.children (some z)).map f.shape)) ∧
    f.sameShape (some x) f (some x) ∧
    f.sameShape (some x) g (some y) = g.sameShape (some y) f (some x) ∧
    (∀ {h loose''}, Reached h loose'' → ∀ z, h.contains (some z) →
      f.sameShape (some x) g (some y) → g.sameShape (some y) h (some z) →
        f.sameShape (some x) h (some z)) ∧
    (f.sameShape (some x) g (some y) → f.height (some x) = g.height (some y) ∧
      (f.preorder (some x)).length = (g.preorder (some y)).length) := by
  have hf := hf.tended.linked
  have hg := hg.tended.linked
  have decides := hf.sameShape_iff hg x y
  have profiles : f.profile x = g.profile y ↔ f.shape x = g.shape y := by
    rw [← hf.arities_shape hx, ← hg.arities_shape hy]
    exact Rose.arities_injective.eq_iff
  refine ⟨decides.trans profiles.symm, decides, hf.shape_eq, ?_, ?_, ?_, fun same => ⟨?_, ?_⟩⟩
  · exact (hf.sameShape_iff hf x x).mpr rfl
  · rw [Bool.eq_iff_iff, decides, hg.sameShape_iff hf y x]
    exact eq_comm
  · intro h loose'' hh z _ same same'
    have hh := hh.tended.linked
    rw [hf.sameShape_iff hh]
    exact (decides.mp same).trans ((hg.sameShape_iff hh y z).mp same')
  · rw [Forest.Linked.height_eq_shape hx, decides.mp same, Forest.Linked.height_eq_shape hy]
  · have sequences := profiles.mpr (decides.mp same)
    simpa [Forest.profile] using congrArg List.length sequences

/-- The clone of the block has the shape of the block, and the loop in it has not. -/
theorem sameShape_decides_nested :
    ((Command.perform Command.nested).1.sameShape (some 0) (Command.perform Command.nested).1
      (some 3) = true ∧
      (Command.perform Command.nested).1.profile 0 = (Command.perform Command.nested).1.profile 3) ∧
    (Command.perform Command.nested).1.sameShape (some 1) (Command.perform Command.nested).1
      (some 3) = false ∧
      (Command.perform Command.nested).1.shape 1 ≠ (Command.perform Command.nested).1.shape 3 := by
  have h := reached_perform Command.nested
  have block : (Command.perform Command.nested).1.contains (some 0) = true := by decide +kernel
  have loop : (Command.perform Command.nested).1.contains (some 1) = true := by decide +kernel
  have copy : (Command.perform Command.nested).1.contains (some 3) = true := by decide +kernel
  have same : (Command.perform Command.nested).1.sameShape (some 0)
      (Command.perform Command.nested).1 (some 3) = true := by decide +kernel
  have differ : (Command.perform Command.nested).1.sameShape (some 1)
      (Command.perform Command.nested).1 (some 3) = false := by decide +kernel
  refine ⟨⟨same, ?_⟩, differ, fun equal => ?_⟩
  · exact (Reached.sameShape_decides h h block copy).1.mp same
  · have equal := (Reached.sameShape_decides h h loop copy).2.1.mpr equal
    exact absurd (differ.symm.trans equal) nofun

end SyntaxForest
