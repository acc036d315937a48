import Std.Data.TreeSet.Lemmas

/-!
# Levels

How many levels there are from some things down, with room for a number of levels below them.

* `levels` says it by recursion, which meets a thing as often as there are ways down to it;
* `countLevels` goes down from level to level and keeps each thing once, so that what is held in
  many places costs no more than what is held in one.  Both find the same number
  (`countLevels_eq`).
-/

namespace SyntaxForest

namespace Traversal

variable {β : Type}

/-- The number of levels from `x` down, with room for a number of levels below it. -/
def levels (below : β → List β) : Nat → β → Nat
  | 0, _ => 1
  | room + 1, x => ((below x).map (levels below room)).foldl max 0 + 1

/-- The members of a list, each once. -/
def distinct [Ord β] (xs : List β) : List β := (Std.TreeSet.ofList xs compare).toList

/-- The number of levels from some things down, added to a count. -/
def countLevels [Ord β] (below : β → List β) : Nat → List β → Nat → Nat
  | _, [], count => count
  | 0, _ :: _, count => count + 1
  | room + 1, x :: xs, count =>
    countLevels below room (distinct ((x :: xs).flatMap below)) (count + 1)

/-- To name each thing once changes no membership. -/
theorem mem_distinct [Ord β] [Std.TransOrd β] [Std.LawfulEqOrd β] {xs : List β} {x : β} :
    x ∈ distinct xs ↔ x ∈ xs := by
  classical
  rw [distinct, Std.TreeSet.mem_toList, Std.TreeSet.mem_ofList, List.contains_iff_mem]

/-- What bounds the greatest value of a function on a list. -/
theorem foldl_max_le_iff (value : β → Nat) (xs : List β) (least bound : Nat) :
    (xs.map value).foldl max least ≤ bound ↔ least ≤ bound ∧ ∀ x ∈ xs, value x ≤ bound := by
  induction xs generalizing least with
  | nil => simp
  | cons x xs ih => simp only [List.map_cons, List.foldl_cons, ih, Nat.max_le, and_assoc,
      List.forall_mem_cons]

/-- The levels from `x` down are one more than those from what lies directly below it. -/
theorem levels_succ_le_iff (below : β → List β) (room bound : Nat) (x : β) :
    levels below (room + 1) x ≤ bound + 1 ↔ ∀ y ∈ below x, levels below room y ≤ bound := by
  simp [levels, foldl_max_le_iff]

/-- There is at least the level of `x` itself. -/
theorem levels_pos (below : β → List β) (room : Nat) (x : β) : 0 < levels below room x := by
  cases room <;> simp [levels]

/-- Going from level to level finds as many levels as the deepest thing has. -/
theorem countLevels_eq [Ord β] [Std.TransOrd β] [Std.LawfulEqOrd β] (below : β → List β)
    (room : Nat) (level : List β) (count : Nat) :
    countLevels below room level count = count + (level.map (levels below room)).foldl max 0 := by
  have equal {m n : Nat} (h : ∀ bound, m ≤ bound ↔ n ≤ bound) : m = n :=
    Nat.le_antisymm ((h n).2 (Nat.le_refl n)) ((h m).1 (Nat.le_refl m))
  induction room generalizing level count with
  | zero =>
    cases level with
    | nil => rfl
    | cons x xs =>
      refine congrArg (count + ·) (equal fun bound => ?_)
      rw [foldl_max_le_iff]
      exact ⟨fun h => ⟨Nat.zero_le bound, fun _ _ => h⟩, fun h => h.2 x List.mem_cons_self⟩
  | succ room ih =>
    cases level with
    | nil => rfl
    | cons x xs =>
      rw [countLevels, ih, Nat.add_assoc, Nat.add_comm 1]
      refine congrArg (count + ·) (equal fun bound => ?_)
      rw [foldl_max_le_iff]
      cases bound with
      | zero =>
        have := levels_pos below (room + 1) x
        exact ⟨fun h => by omega, fun h => by have := h.2 x List.mem_cons_self; omega⟩
      | succ bound =>
        rw [Nat.add_le_add_iff_right, foldl_max_le_iff]
        simp only [levels_succ_le_iff, mem_distinct, List.mem_flatMap, Nat.zero_le, true_and]
        exact ⟨fun h z hz y hy => h y ⟨z, hz, hy⟩, fun h y ⟨z, hz, hy⟩ => h z hz y hy⟩

end Traversal

end SyntaxForest
