import SyntaxForest.Proofs.Linked

/-!
# Loops that come to an end

The queries that follow links carry a bound in their definitions, so that they answer for every
forest.  In a linked forest the bound is never what ends them: the plain loops, which keep no
account of anything, end after finitely many turns, and with the answers of the queries.

* `Linked.ancestors_end` — following parents one by one;
* `Linked.visit_ends`, `Linked.height_ends` — a stack of nodes, and a stack of nodes with levels;
* `Linked.sameShape_ends` — a stack of pairs of nodes from two forests.

What is load-bearing is the rank of a node.  It falls on every way down, for a pair of nodes the
smaller of two ranks does, and a turn of a loop opens only what has a smaller rank.
-/

namespace SyntaxForest

namespace Forest

open Traversal

variable {f g : Forest}

/-! ## Upwards -/

/-- A bounded chain lists the iterates of `parent` up to the end of the chain. -/
theorem exists_lineage_eq {bound : Nat} {x : Link} (h : f.parent^[bound] x = none) :
    ∃ n, f.parent^[n] x = none ∧
      (f.lineage bound x).map some = (List.range n).map fun i => f.parent^[i] x := by
  induction bound generalizing x with
  | zero => exact ⟨0, h, rfl⟩
  | succ bound ih =>
    cases x with
    | none => exact ⟨0, rfl, rfl⟩
    | some x =>
      obtain ⟨n, hn, hlist⟩ := ih h
      refine ⟨n + 1, hn, ?_⟩
      rw [lineage, List.map_cons, hlist, List.range_succ_eq_map, List.map_cons, List.map_map]
      rfl

/-- **Following parents ends, and the ancestors are what it meets on the way.** -/
theorem Linked.ancestors_end (hf : f.Linked) (x : Link) :
    ∃ n, f.parent^[n + 1] x = none ∧
      (f.ancestors x).map some = (List.range n).map fun i => f.parent^[i + 1] x := by
  have ended : f.parent^[f.records.size] (f.parent x) = none := by
    rw [show f.records.size = f.size from hf.intact.size_records]
    exact hf.grounded.iterate_size hf.parents fun y hy => hf.parents hy
  obtain ⟨n, hn, hlist⟩ := exists_lineage_eq ended
  exact ⟨n, hn, hlist⟩

/-! ## Downwards -/

/-- **Visiting a tree from a stack ends, whatever the visitor decides.** -/
theorem Linked.visit_ends (hf : f.Linked) {σ : Type} (visitor : σ → NodeIndex → σ × Bool)
    (state : σ) {x : NodeIndex} (hx : f.contains (some x)) :
    ∃ n, (turn f.below visitor)^[n] ([x], state) = ([], f.visit visitor (some x) state) := by
  have room : ∀ entry ∈ [(f.size, x)], f.rank entry.2 ≤ entry.1 := by
    intro entry hentry
    obtain rfl := List.mem_singleton.mp hentry
    exact f.rank_le x
  obtain ⟨n, hn⟩ := exists_turns_eq_walk hf.rank_lt visitor [(f.size, x)] state room
  refine ⟨n, hn.trans ?_⟩
  rw [visit]
  simp only [hx, if_true]

/-- **Counting levels from a stack ends, with the height of the tree.** -/
theorem Linked.height_ends (hf : f.Linked) {x : NodeIndex} (hx : f.contains (some x)) :
    ∃ n, (turn (belowAtLevel f.below) deepest)^[n] ([(x, 1)], 0) =
      ([], f.height (some x)) := by
  have descends : ∀ entry, ∀ entry' ∈ belowAtLevel f.below entry,
      f.rank entry'.1 < f.rank entry.1 := by
    rintro ⟨x, level⟩ entry' hentry
    obtain ⟨y, hy, rfl⟩ := List.mem_map.mp (List.mem_reverse.mp hentry)
    exact hf.rank_lt x y hy
  have room : ∀ entry ∈ [(f.size, (x, 1))], f.rank entry.2.1 ≤ entry.1 := by
    intro entry hentry
    obtain rfl := List.mem_singleton.mp hentry
    exact f.rank_le x
  obtain ⟨n, hn⟩ := exists_turns_eq_walk descends deepest [(f.size, (x, 1))] 0 room
  have equal : walk (belowAtLevel f.below) deepest [(f.size, (x, 1))] 0 = f.height (some x) := by
    rw [walk_eq_explore, List.foldl_cons, List.foldl_nil, height_some, if_pos hx]
    -- two numbers with the same upper bounds are equal
    have bounds (bound : Nat) :
        explore (belowAtLevel f.below) deepest f.size 0 (x, 1) ≤ bound ↔
          levels f.below f.size x ≤ bound := by
      rw [explore_deepest_le_iff, Nat.add_comm 1, Nat.add_le_add_iff_right]
      exact and_iff_right (Nat.zero_le bound)
    exact Nat.le_antisymm ((bounds _).mpr (Nat.le_refl _)) ((bounds _).mp (Nat.le_refl _))
  exact ⟨n, hn.trans (by rw [equal])⟩

/-! ## Two trees at once -/

/-- The rank of a link: nothing lies below none. -/
def rankOf (f : Forest) (x : Link) : Nat := x.elim 0 f.rank

theorem rankOf_le (f : Forest) (x : Link) : f.rankOf x ≤ f.size := by
  cases x with
  | none => exact Nat.zero_le _
  | some x => exact f.rank_le x

theorem Linked.rankOf_lt (hf : f.Linked) {x : Link} {y : NodeIndex} (hy : y ∈ f.children x) :
    f.rankOf (some y) < f.rankOf x := by
  cases x with
  | none => cases hy
  | some x => exact hf.rank_lt x y hy

/-- Of two links the one with the smaller rank bounds how far down a comparison can go. -/
def pairRank (f g : Forest) (pair : Link × Link) : Nat := min (f.rankOf pair.1) (g.rankOf pair.2)

theorem Linked.pairRank_lt (hf : f.Linked) (hg : g.Linked) (pair : Link × Link) :
    ∀ below ∈ pairsBelow f g pair, pairRank f g below < pairRank f g pair := by
  intro below hbelow
  obtain ⟨⟨x, y⟩, hpair, rfl⟩ := List.mem_map.mp (List.mem_reverse.mp hbelow)
  have hx := hf.rankOf_lt (List.of_mem_zip hpair).1
  have hy := hg.rankOf_lt (List.of_mem_zip hpair).2
  exact Nat.lt_min.mpr ⟨Nat.lt_of_le_of_lt (Nat.min_le_left ..) hx,
    Nat.lt_of_le_of_lt (Nat.min_le_right ..) hy⟩

theorem pairRank_le (f g : Forest) (pair : Link × Link) :
    pairRank f g pair ≤ f.size * g.size := by
  rcases Nat.eq_zero_or_pos g.size with hzero | hpos
  · have empty : g.rankOf pair.2 = 0 := Nat.le_zero.mp (hzero ▸ g.rankOf_le pair.2)
    rw [pairRank, empty, Nat.min_zero]
    exact Nat.zero_le _
  · calc pairRank f g pair ≤ f.rankOf pair.1 := Nat.min_le_left ..
      _ ≤ f.size := f.rankOf_le pair.1
      _ ≤ f.size * g.size := Nat.le_mul_of_pos_right _ hpos

/-- **Comparing two trees from a stack ends, with the answer of `sameShape`.** -/
theorem Linked.sameShape_ends (hf : f.Linked) (hg : g.Linked) (x y : Link) :
    ∃ n, (turn (pairsBelow f g) (checking (agree f g)))^[n] ([(x, y)], true) =
      ([], f.sameShape x g y) := by
  have descends := hf.pairRank_lt hg
  have enough := pairRank_le f g (x, y)
  have room : ∀ entry ∈ [(f.size * g.size, (x, y))], pairRank f g entry.2 ≤ entry.1 := by
    intro entry hentry
    obtain rfl := List.mem_singleton.mp hentry
    exact enough
  obtain ⟨n, hn⟩ :=
    exists_turns_eq_walk descends (checking (agree f g)) [(f.size * g.size, (x, y))] true room
  have equal : walk (pairsBelow f g) (checking (agree f g)) [(f.size * g.size, (x, y))] true =
      f.sameShape x g y := by
    rw [walk_eq_explore, List.foldl_cons, List.foldl_nil, explore_checking, Bool.true_and,
      Bool.eq_iff_iff, ← passes_iff_unfolding descends (agree f g) enough, sameShape,
      everywhere_iff _ _ _ descends _ _ enough]
  exact ⟨n, hn.trans (by rw [equal])⟩

end Forest

end SyntaxForest
