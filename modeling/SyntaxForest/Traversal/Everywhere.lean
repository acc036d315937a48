import Std.Data.TreeSet.Lemmas
import SyntaxForest.Traversal

/-!
# Tests that are passed everywhere

Whether everything from some place down passes a test.  The walk goes below each thing once,
however many ways lead there, and goes nowhere after the first failure; so it costs no more than
there are different things, also where they lie below each other in a circle.

* `Passes` says of a thing that everything from there down passes, however far;
* `everywhere` decides it by a walk.  Without circles it answers what `Passes` says
  (`everywhere_iff`); that there are none is stated by a *rank*, a number that falls on every way
  down.

The proof follows the walk: whatever has become known on the way passes everywhere, except for what
is still being explored, and that has a higher rank than anything below it (`Settles`).
-/

namespace SyntaxForest

namespace Traversal

variable {β : Type}

/-- The visitor of a test.  It knows what has passed so far, or nothing after a failure. -/
def testing [Ord β] (test : β → Bool) (passed : Option (Std.TreeSet β compare)) (x : β) :
    Option (Std.TreeSet β compare) × Bool :=
  match passed with
  | none => (none, false)
  | some known =>
    if known.contains x then (some known, false)
    else if test x then (some (known.insert x), true)
    else (none, false)

/-- Whether a test is passed by `x` and by everything below it, with room for a number of levels
below it. -/
def everywhere [Ord β] (below : β → List β) (test : β → Bool) (room : Nat) (x : β) : Bool :=
  (walk below (testing test) [(room, x)] (some ∅)).isSome

/-- Everything from `x` down passes a test, however far down. -/
def Passes (below : β → List β) (test : β → Bool) (x : β) : Prop :=
  ∀ room, ∀ y ∈ unfolding below room x, test y

/-- Everything from `x` down passes if `x` does and everything from what lies directly below. -/
theorem passes_iff (below : β → List β) (test : β → Bool) (x : β) :
    Passes below test x ↔ test x ∧ ∀ y ∈ below x, Passes below test y := by
  constructor
  · intro h
    refine ⟨h 0 x (by simp [unfolding]), fun y hy room z hz => h (room + 1) z ?_⟩
    exact List.mem_cons_of_mem x (List.mem_flatMap.mpr ⟨y, hy, hz⟩)
  · rintro ⟨hx, hbelow⟩ room z hz
    cases room with
    | zero => simp_all [unfolding]
    | succ room =>
      rcases List.mem_cons.mp hz with rfl | hz
      · exact hx
      · obtain ⟨y, hy, hz⟩ := List.mem_flatMap.mp hz
        exact hbelow y hy room z hz

/-- After a failure nothing is explored any more. -/
theorem foldl_explore_none [Ord β] (below : β → List β) (test : β → Bool) (room : Nat)
    (ys : List β) : ys.foldl (explore below (testing test) room) none = none := by
  induction ys with
  | nil => rfl
  | cons y ys ih => cases room <;> exact ih

variable [Ord β]

/-- A result settles a statement over what was known before: it is a failure exactly if the
statement is false, and everything that has become known passes from there down. -/
structure Settles (below : β → List β) (test : β → Bool) (known : Std.TreeSet β compare)
    (statement : Prop) (result : Option (Std.TreeSet β compare)) : Prop where
  isSome_iff : result.isSome ↔ statement
  passes : ∀ after, result = some after → ∀ z ∈ after, z ∈ known ∨ Passes below test z

/-- If each of several explorations settles its part, one after the other they settle the whole.
What is known of a rank below `bound` has to pass; above, things may still be under exploration. -/
theorem settles_foldl (below : β → List β) (test : β → Bool) (rank : β → Nat) (room bound : Nat)
    (ys : List β) (lower : ∀ y ∈ ys, rank y < bound)
    (each : ∀ y ∈ ys, ∀ known : Std.TreeSet β compare,
      (∀ z ∈ known, rank z ≤ rank y → Passes below test z) →
        Settles below test known (Passes below test y)
          (explore below (testing test) room (some known) y))
    (known : Std.TreeSet β compare)
    (settled : ∀ z ∈ known, rank z < bound → Passes below test z) :
    Settles below test known (∀ y ∈ ys, Passes below test y)
      (ys.foldl (explore below (testing test) room) (some known)) := by
  induction ys generalizing known with
  | nil => exact ⟨by simp, fun after h z hz => by simp_all⟩
  | cons y ys ih =>
    have hy := lower y List.mem_cons_self
    have first := each y List.mem_cons_self known fun z hz h => settled z hz (by omega)
    rw [List.foldl_cons]
    cases result : explore below (testing test) room (some known) y with
    | none =>
      rw [foldl_explore_none]
      have := first.isSome_iff
      exact ⟨by simp_all, fun after h => by simp at h⟩
    | some after =>
      have passed : Passes below test y := first.isSome_iff.mp (by simp [result])
      have known_after := first.passes after result
      have rest := ih (fun z hz => lower z (List.mem_cons_of_mem y hz))
        (fun z hz => each z (List.mem_cons_of_mem y hz)) after
        (fun z hz h => (known_after z hz).elim (settled z · h) id)
      refine ⟨by rw [rest.isSome_iff]; simp [passed], fun final h z hz => ?_⟩
      exact (rest.passes final h z hz).elim (known_after z) Or.inr

variable [Std.TransOrd β] [Std.LawfulEqOrd β]

/-- Exploring `x` settles it, if exploring what lies directly below settles that. -/
theorem settles_explore_succ (below : β → List β) (test : β → Bool) (rank : β → Nat) (room : Nat)
    (x : β) (descends : ∀ y ∈ below x, rank y < rank x)
    (each : ∀ y ∈ below x, ∀ known : Std.TreeSet β compare,
      (∀ z ∈ known, rank z ≤ rank y → Passes below test z) →
        Settles below test known (Passes below test y)
          (explore below (testing test) room (some known) y))
    (known : Std.TreeSet β compare)
    (settled : ∀ z ∈ known, rank z ≤ rank x → Passes below test z) :
    Settles below test known (Passes below test x)
      (explore below (testing test) (room + 1) (some known) x) := by
  rw [explore]
  by_cases old : x ∈ known
  · have passed := settled x old (Nat.le_refl _)
    simp only [testing, Std.TreeSet.mem_iff_contains.mp old, if_true]
    exact ⟨by simp [passed], fun after h z hz => by simp_all⟩
  by_cases hx : test x
  · have passed_iff : Passes below test x ↔ ∀ y ∈ below x, Passes below test y := by
      rw [passes_iff]
      simp [hx]
    have mem_insert {z : β} (hz : z ∈ known.insert x) : z = x ∨ z ∈ known :=
      (Std.TreeSet.mem_insert.mp hz).imp (fun h => (Std.LawfulEqOrd.eq_of_compare h).symm) id
    have rest := settles_foldl below test rank room (rank x) (below x) descends each
      (known.insert x) fun z hz h =>
        (mem_insert hz).elim (fun e => by simp [e] at h) (settled z · (by omega))
    simp only [testing, old, hx, ← Std.TreeSet.mem_iff_contains, if_true, if_false]
    refine ⟨by rw [rest.isSome_iff, passed_iff], fun after h z hz => ?_⟩
    refine (rest.passes after h z hz).elim (fun hz => ?_) Or.inr
    refine (mem_insert hz).symm.imp id fun e => ?_
    rw [e, passed_iff, ← rest.isSome_iff, h]
    rfl
  · have failed : ¬ Passes below test x := fun h => hx ((passes_iff below test x).mp h).1
    simp only [testing, old, hx, ← Std.TreeSet.mem_iff_contains, if_false]
    exact ⟨by simp [failed], fun after h => by simp at h⟩

/-- Exploring `x` with room for its rank settles it. -/
theorem settles_explore (below : β → List β) (test : β → Bool) (rank : β → Nat)
    (descends : ∀ x, ∀ y ∈ below x, rank y < rank x) (room : Nat) (x : β) (h : rank x ≤ room)
    (known : Std.TreeSet β compare)
    (settled : ∀ z ∈ known, rank z ≤ rank x → Passes below test z) :
    Settles below test known (Passes below test x)
      (explore below (testing test) room (some known) x) := by
  induction room generalizing x known with
  | zero =>
    have leaf : below x = [] := List.eq_nil_iff_forall_not_mem.mpr fun y hy => by
      have := descends x y hy
      omega
    have same : explore below (testing test) 0 (some known) x =
        explore below (testing test) 1 (some known) x := by
      simp only [explore, leaf, List.foldl_nil]
      split <;> simp_all
    rw [same]
    exact settles_explore_succ below test rank 0 x (descends x) (by simp [leaf]) known settled
  | succ room ih =>
    refine settles_explore_succ below test rank room x (descends x) (fun y hy => ih y ?_)
      known settled
    have := descends x y hy
    omega

/-- With room for its rank, a walk from `x` decides whether everything from `x` down passes. -/
theorem everywhere_iff (below : β → List β) (test : β → Bool) (rank : β → Nat)
    (descends : ∀ x, ∀ y ∈ below x, rank y < rank x) (room : Nat) (x : β) (h : rank x ≤ room) :
    everywhere below test room x ↔ Passes below test x := by
  rw [everywhere, walk_eq_explore]
  exact (settles_explore below test rank descends room x h ∅ (by simp)).isSome_iff

end Traversal

end SyntaxForest
