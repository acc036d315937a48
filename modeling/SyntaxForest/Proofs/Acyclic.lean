import Mathlib.Data.Finset.Card
import Mathlib.Data.Finset.Range
import Mathlib.Data.List.Flatten
import SyntaxForest.Proofs.Linked
import SyntaxForest.Proofs.Recursion

/-!
# Forests without circles

A forest that was read from a text may store a node in several places, or store what is no node, but
walking down it ends as long as no node lies below itself.  `Forest.Acyclic` says that, and nothing
about parents.

For walks it means that some number falls on every way down.  Here it is `Forest.reach`, the number
of nodes from a node down: below a node the node itself is missing.  In linked forests, where
parents can be trusted, `Forest.rank` does the same by counting ancestors.

An assembly *follows* a forest if the parts of a job are about nodes below its node, each stored
place at most once.  Over a forest without circles such an assembly has one recursion, and over a
linked forest no node is in the way of another.
-/

namespace SyntaxForest

namespace Forest

/-- No node lies below itself. -/
def Acyclic (f : Forest) : Prop := ∀ x, ¬ Relation.TransGen (fun a b => b ∈ f.below a) x x

open Classical in
/-- The number of nodes from a node down. -/
noncomputable def reach (f : Forest) (x : NodeIndex) : Nat :=
  ((Finset.range f.size).filter fun y =>
    Relation.ReflTransGen (fun a b => b ∈ f.below a) x y).card

variable {f : Forest}

theorem reach_le (f : Forest) (x : NodeIndex) : f.reach x ≤ f.size := by
  classical
  exact (Finset.card_filter_le _ _).trans_eq (Finset.card_range _)

/-- What has something below it is a node. -/
theorem contains_of_mem_below {x y : NodeIndex} (h : y ∈ f.below x) : f.contains (some x) := by
  obtain ⟨c, hc, -⟩ := mem_children_iff.mp h
  exact contains_of_contents? hc

/-- **Without circles there are fewer nodes on every way down.** -/
theorem Acyclic.reach_lt (hf : f.Acyclic) (x : NodeIndex) :
    ∀ y ∈ f.below x, f.reach y < f.reach x := by
  classical
  intro y hy
  apply Finset.card_lt_card
  rw [Finset.ssubset_iff_of_subset]
  · refine ⟨x, ?_, ?_⟩
    · rw [Finset.mem_filter, Finset.mem_range]
      exact ⟨contains_some.mp (contains_of_mem_below hy), .refl⟩
    · rw [Finset.mem_filter, not_and]
      exact fun _ path => hf x (.head' hy path)
  · intro z hz
    rw [Finset.mem_filter] at hz ⊢
    exact ⟨hz.1, .head hy hz.2⟩

/-- Linked forests have no circles. -/
theorem Linked.acyclic (hf : f.Linked) : f.Acyclic := by
  intro x circle
  have falls {x y : NodeIndex} (path : Relation.TransGen (fun a b => b ∈ f.below a) x y) :
      f.rank y < f.rank x := by
    induction path with
    | single step => exact hf.rank_lt _ _ step
    | tail _ step ih => exact (hf.rank_lt _ _ step).trans ih
  exact Nat.lt_irrefl _ (falls circle)

end Forest

/-! ## Assemblies over a forest -/

namespace Assembly

variable {α β : Type} {a : Assembly α β} {f : Forest} {results : β → Except TreeError α}

/-- The parts of a job are about nodes below its node, in their order. -/
def Follows (a : Assembly α β) (f : Forest) : Prop :=
  ∀ job, ((a.below job).map a.node).Sublist (f.below (a.node job))

/-- The result for a link: that of the job for its node. -/
def resultFor (results : β → Except TreeError α) (job : NodeIndex → β) (x : Link) :
    Except TreeError α :=
  match x with
  | some x => results (job x)
  | none => .error (.unknownNode none)

namespace Follows

variable (ha : a.Follows f)
include ha

theorem reach_lt (hf : f.Acyclic) (job : β) :
    ∀ part ∈ a.below job, f.reach (a.node part) < f.reach (a.node job) := fun _ hpart =>
  hf.reach_lt _ _ ((ha job).subset (List.mem_map_of_mem hpart))

/-- What a job spans is among what unfolds from its node. -/
theorem span_sublist (room : Nat) (job : β) :
    (a.span room job).Sublist (Traversal.unfolding f.below room (a.node job)) := by
  induction room generalizing job with
  | zero => exact List.Sublist.refl _
  | succ room ih =>
    rw [span, Traversal.unfolding, Traversal.unfolding, List.map_cons, List.map_flatMap,
      List.cons_sublist_cons]
    refine (List.Sublist.flatMap_right (a.below job) fun part _ => ih part).trans ?_
    rw [← List.flatMap_map a.node]
    exact (ha job).flatMap _

theorem nodup_span (hf : f.Linked) (room : Nat) (job : β) : (a.span room job).Nodup :=
  (ha.span_sublist room job).nodup (hf.nodup_unfolding room (a.node job))

/-- **Over a forest without circles there is one recursion.** -/
theorem existsUnique_recursive (hf : f.Acyclic) : ∃! results, a.Recursive results := by
  obtain ⟨results, hresults⟩ := exists_recursive (ha.reach_lt hf)
  exact ⟨results, hresults, fun _ h => h.unique (ha.reach_lt hf) hresults⟩

/-- **What is answered for a tree that is not too high is what recursion gives.** -/
theorem resultFor_eq_ok (thorough : a.Thorough) (hf : f.Acyclic) (hresults : a.Recursive results)
    {job : NodeIndex → β} {x : Link} {result : α}
    (run : (do f.checkHeight x; resultFor (a.run f.size) job x) = .ok result) :
    resultFor results job x = .ok result := by
  cases height : f.checkHeight x with
  | error => rw [height] at run; cases run
  | ok =>
    rw [height] at run
    cases x with
    | none => cases run
    | some x => exact hresults.of_run thorough (ha.reach_lt hf) (f.reach_le _) run

/-- **Over a linked forest the answer for a tree that is not too high is what recursion gives**,
errors included. -/
theorem resultFor_eq (thorough : a.Thorough) (hf : f.Linked) (hresults : a.Recursive results)
    {job : NodeIndex → β} {x : Link} (height : f.height x ≤ Forest.maxHeight) :
    (do f.checkHeight x; resultFor (a.run f.size) job x) = resultFor results job x := by
  rw [Forest.checkHeight, if_neg (Nat.not_lt.mpr height)]
  cases x with
  | none => rfl
  | some x =>
    exact hresults.run_eq thorough (ha.reach_lt hf.acyclic) (f.reach_le _) (ha.nodup_span hf _ _)

/-- Trees of one height have the same answer, or the same error, if recursion gives the same for
them. -/
theorem answer_eq {γ : Type} {a' : Assembly α γ} {g : Forest} (ha' : a'.Follows g)
    (thorough : a.Thorough) (thorough' : a'.Thorough) (hf : f.Linked) (hg : g.Linked)
    {job : NodeIndex → β} {job' : NodeIndex → γ} {x y : Link} (height : g.height y = f.height x)
    (same : ∀ results results', a.Recursive results → a'.Recursive results' →
      resultFor results' job' y = resultFor results job x) :
    (do g.checkHeight y; resultFor (a'.run g.size) job' y) =
      (do f.checkHeight x; resultFor (a.run f.size) job x) := by
  by_cases low : f.height x ≤ Forest.maxHeight
  · obtain ⟨results, hresults, -⟩ := ha.existsUnique_recursive hf.acyclic
    obtain ⟨results', hresults', -⟩ := ha'.existsUnique_recursive hg.acyclic
    rw [ha.resultFor_eq thorough hf hresults low,
      ha'.resultFor_eq thorough' hg hresults' (height ▸ low)]
    exact same results results' hresults hresults'
  · rw [Forest.checkHeight, Forest.checkHeight, height, if_pos (Nat.lt_of_not_le low)]
    rfl

end Follows

end Assembly

end SyntaxForest
