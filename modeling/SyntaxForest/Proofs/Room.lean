import Mathlib.Data.List.Basic
import Mathlib.Data.List.Perm.Basic
import Mathlib.Logic.Function.Iterate
import Mathlib.Logic.Relation
import SyntaxForest.Traversal
import SyntaxForest.Traversal.Everywhere
import SyntaxForest.Traversal.Level

/-!
# Walks that have room enough

Every walk of this library carries a bound on the levels it opens.  Where a *rank* falls on every
way down, room for the rank of the start is room for everything, and the bound is no part of the
meaning of the walk any more:

* `unfolding_of_le` — more room lists nothing more;
* `exists_turns_eq_walk` — the loop over a plain stack, without any account of room, ends, and with
  the answer of the walk.  `turn` is one round of that loop.
* `explore_deepest_le_iff` and `explore_checking` — what two such loops find: the number of levels,
  and whether a test is passed everywhere.

The rank is a function and not a relation because what falls along parent links in a forest is a
number, the distance from the deepest possible level.
-/

namespace SyntaxForest

namespace Traversal

variable {β σ : Type} {below : β → List β} {rank : β → Nat}

/-! ## Unfolding -/

/-- What has rank zero has nothing below it. -/
theorem below_eq_nil (descends : ∀ x, ∀ y ∈ below x, rank y < rank x) {x : β} (h : rank x = 0) :
    below x = [] := by
  apply List.eq_nil_iff_forall_not_mem.mpr
  intro y hy
  have := descends x y hy
  omega

/-- With room for the rank of `x`, its unfolding is `x` and what unfolds with the same room from
directly below. -/
theorem unfolding_eq (descends : ∀ x, ∀ y ∈ below x, rank y < rank x) {room : Nat} {x : β}
    (h : rank x ≤ room) :
    unfolding below room x = x :: (below x).flatMap (unfolding below room) := by
  induction room generalizing x with
  | zero =>
    have leaf : below x = [] := below_eq_nil descends (Nat.le_zero.mp h)
    simp [unfolding, leaf]
  | succ room ih =>
    rw [unfolding]
    refine congrArg (x :: ·) (List.flatMap_congr fun y hy => ?_)
    have lower := descends x y hy
    rw [ih (by omega), unfolding]

/-- More room than for the rank of `x` lists nothing more. -/
theorem unfolding_of_le (descends : ∀ x, ∀ y ∈ below x, rank y < rank x) {room room' : Nat}
    {x : β} (h : rank x ≤ room) (hle : room ≤ room') :
    unfolding below room' x = unfolding below room x := by
  induction room' with
  | zero => rw [Nat.le_zero.mp hle]
  | succ room' ih =>
    rcases Nat.lt_or_ge room' room with hlt | hge
    · rw [show room = room' + 1 by omega]
    · rw [← ih hge, unfolding, ← unfolding_eq descends (by omega)]

/-- What an unfolding lists lies below its start. -/
theorem reaches_of_mem_unfolding {room : Nat} {x y : β} (h : y ∈ unfolding below room x) :
    Relation.ReflTransGen (fun a b => b ∈ below a) x y := by
  induction room generalizing x with
  | zero =>
    obtain rfl := List.mem_singleton.mp h
    exact .refl
  | succ room ih =>
    rcases List.mem_cons.mp h with rfl | h
    · exact .refl
    · obtain ⟨z, hz, hy⟩ := List.mem_flatMap.mp h
      exact .head hz (ih hy)

/-- With room for the rank of the start, an unfolding lists everything below it. -/
theorem mem_unfolding_iff (descends : ∀ x, ∀ y ∈ below x, rank y < rank x) {room : Nat} {x y : β}
    (h : rank x ≤ room) :
    y ∈ unfolding below room x ↔ Relation.ReflTransGen (fun a b => b ∈ below a) x y := by
  refine ⟨reaches_of_mem_unfolding, fun path => ?_⟩
  induction path using Relation.ReflTransGen.head_induction_on with
  | refl =>
    rw [unfolding_eq descends h]
    exact List.mem_cons_self
  | @head x z step _ ih =>
    have lower := descends x z step
    rw [unfolding_eq descends h]
    exact List.mem_cons_of_mem x (List.mem_flatMap.mpr ⟨z, step, ih (by omega)⟩)

/-- Renaming what lies below renames the unfolding. -/
theorem unfolding_map {γ : Type} {below' : γ → List γ} (rename : β → γ) {room : Nat} {x : β}
    (h : ∀ y ∈ unfolding below room x, below' (rename y) = (below y).map rename) :
    unfolding below' room (rename x) = (unfolding below room x).map rename := by
  induction room generalizing x with
  | zero => rfl
  | succ room ih =>
    have here : below' (rename x) = (below x).map rename := h x List.mem_cons_self
    rw [unfolding, unfolding, here, List.map_cons, List.flatMap_map, List.map_flatMap]
    refine congrArg (rename x :: ·) (List.flatMap_congr fun y hy => ?_)
    exact ih fun z hz => h z (List.mem_cons_of_mem x (List.mem_flatMap.mpr ⟨y, hy, hz⟩))

/-- More room than for the rank of `x` finds no more levels. -/
theorem levels_of_le (descends : ∀ x, ∀ y ∈ below x, rank y < rank x) {room room' : Nat} {x : β}
    (h : rank x ≤ room) (hle : room ≤ room') : levels below room' x = levels below room x := by
  induction room generalizing room' x with
  | zero =>
    have leaf : below x = [] := below_eq_nil descends (Nat.le_zero.mp h)
    cases room' with
    | zero => rfl
    | succ room' => simp [levels, leaf]
  | succ room ih =>
    obtain ⟨room', rfl⟩ : ∃ n, room' = n + 1 := ⟨room' - 1, by omega⟩
    rw [levels, levels]
    refine congrArg (fun counts : List Nat => counts.foldl max 0 + 1)
      (List.map_congr_left fun y hy => ?_)
    have lower := descends x y hy
    exact ih (by omega) (by omega)

/-- A visitor that goes on everywhere visits the unfolding from first to last. -/
theorem explore_eq_foldl {visit : σ → β → σ × Bool} {room : Nat} {x : β}
    (h : ∀ y ∈ unfolding below room x, ∀ state, (visit state y).2 = true) (state : σ) :
    explore below visit room state x =
      (unfolding below room x).foldl (fun state y => (visit state y).1) state := by
  induction room generalizing state x with
  | zero => rfl
  | succ room ih =>
    have each (ys : List β) (hys : ys ⊆ below x) (state : σ) :
        ys.foldl (explore below visit room) state =
          (ys.flatMap (unfolding below room)).foldl (fun state y => (visit state y).1) state := by
      induction ys generalizing state with
      | nil => rfl
      | cons y ys ihys =>
        have inner : ∀ z ∈ unfolding below room y, ∀ state, (visit state z).2 = true := fun z hz =>
          h z (List.mem_cons_of_mem x (List.mem_flatMap.mpr ⟨y, hys List.mem_cons_self, hz⟩))
        rw [List.foldl_cons, ih inner, ihys (fun z hz => hys (List.mem_cons_of_mem y hz)),
          List.flatMap_cons, List.foldl_append]
    have goes : (visit state x).2 = true := h x List.mem_cons_self state
    rw [explore, unfolding, List.foldl_cons, ← each (below x) (List.Subset.refl _)]
    split
    · next heq => rw [heq]
    · next heq => rw [heq] at goes; cases goes

/-- A visitor that only takes down what it meets, and goes on everywhere, takes down the
unfolding. -/
theorem explore_collect (room : Nat) (seen : List β) (x : β) :
    explore below (fun seen x => (x :: seen, true)) room seen x =
      (unfolding below room x).reverse ++ seen := by
  rw [explore_eq_foldl fun _ _ _ => rfl]
  exact List.foldl_flip_cons_eq_append'

/-! ## The loop over a plain stack -/

/-- One turn of a walk that keeps no account of room: the entry on top of the stack is visited, and
what lies below it goes on the stack if the visitor says so. -/
def turn (below : β → List β) (visit : σ → β → σ × Bool) : List β × σ → List β × σ
  | ([], state) => ([], state)
  | (x :: rest, state) =>
    match visit state x with
    | (state, true) => (below x ++ rest, state)
    | (state, false) => (rest, state)

/-- **The loop over a plain stack ends, and with the answer of the walk**, if every entry has room
for its rank. -/
theorem exists_turns_eq_walk (descends : ∀ x, ∀ y ∈ below x, rank y < rank x)
    (visit : σ → β → σ × Bool) (stack : List (Nat × β)) (state : σ)
    (room : ∀ entry ∈ stack, rank entry.2 ≤ entry.1) :
    ∃ n, (turn below visit)^[n] (stack.map Prod.snd, state) =
      ([], walk below visit stack state) := by
  fun_induction walk below visit stack state with
  | case1 state => exact ⟨0, rfl⟩
  | case2 state entry rest next hvisit ih =>
    obtain ⟨bound, x⟩ := entry
    have enough : rank x ≤ bound := room (bound, x) List.mem_cons_self
    -- an entry without room has nothing below it, so it opens the same entries either way
    have opened : (expand below (bound, x)).map Prod.snd = below x := by
      cases bound with
      | zero => exact (below_eq_nil descends (Nat.le_zero.mp enough)).symm
      | succ bound => simp [expand, Function.comp_def]
    have lower : ∀ entry ∈ expand below (bound, x) ++ rest, rank entry.2 ≤ entry.1 := by
      intro entry hentry
      rcases List.mem_append.mp hentry with hentry | hentry
      · cases bound with
        | zero => simp [expand] at hentry
        | succ bound =>
          obtain ⟨y, hy, rfl⟩ := List.mem_map.mp hentry
          have := descends x y hy
          show rank y ≤ bound
          omega
      · exact room entry (List.mem_cons_of_mem _ hentry)
    obtain ⟨n, hn⟩ := ih lower
    refine ⟨n + 1, ?_⟩
    rw [Function.iterate_succ_apply, List.map_cons, turn]
    simp only at hvisit
    rw [hvisit, ← hn, List.map_append, opened]
  | case3 state entry rest next hvisit ih =>
    obtain ⟨n, hn⟩ := ih fun entry hentry => room entry (List.mem_cons_of_mem _ hentry)
    refine ⟨n + 1, ?_⟩
    rw [Function.iterate_succ_apply, List.map_cons, turn, hvisit, ← hn]

/-! ## Counting levels in one walk -/

/-- What lies below an entry that knows its level, from last to first. -/
def belowAtLevel (below : β → List β) (entry : β × Nat) : List (β × Nat) :=
  ((below entry.1).map (·, entry.2 + 1)).reverse

/-- A visitor that keeps the deepest level it has met. -/
def deepest (found : Nat) (entry : β × Nat) : Nat × Bool := (max found entry.2, true)

/-- What bounds the deepest level that a walk meets. -/
theorem explore_deepest_le_iff (room found bound : Nat) (x : β) (level : Nat) :
    explore (belowAtLevel below) deepest room found (x, level) ≤ bound ↔
      found ≤ bound ∧ level + levels below room x ≤ bound + 1 := by
  induction room generalizing found x level with
  | zero =>
    simp only [explore, deepest, levels, Nat.max_le, Nat.add_le_add_iff_right]
  | succ room ih =>
    have each (ys : List β) (start : Nat) :
        (ys.map (·, level + 1)).foldl (explore (belowAtLevel below) deepest room) start ≤ bound ↔
          start ≤ bound ∧ ∀ y ∈ ys, level + 1 + levels below room y ≤ bound + 1 := by
      induction ys generalizing start with
      | nil => simp
      | cons y ys ihys =>
        rw [List.map_cons, List.foldl_cons, ihys, ih, List.forall_mem_cons, and_assoc]
    show ((belowAtLevel below (x, level)).foldl _ (max found level)) ≤ bound ↔ _
    rw [belowAtLevel, ← List.map_reverse, each, Nat.max_le, and_assoc]
    simp only [List.mem_reverse]
    refine and_congr_right fun _ => ?_
    constructor
    · rintro ⟨hlevel, hbelow⟩
      have := (levels_succ_le_iff below room (bound - level) x).mpr fun y hy => by
        have := hbelow y hy
        omega
      omega
    · intro h
      have hlevel : level ≤ bound := by
        have := levels_pos below (room + 1) x
        omega
      refine ⟨hlevel, fun y hy => ?_⟩
      have := (levels_succ_le_iff below room (bound - level) x).mp (by omega) y hy
      omega

/-! ## Testing without a memory -/

/-- A visitor that goes on as long as a test is passed, and goes nowhere after a failure. -/
def checking (test : β → Bool) (ok : Bool) (x : β) : Bool × Bool :=
  (ok && test x, ok && test x)

/-- Exploring with such a visitor tests what an unfolding lists. -/
theorem explore_checking (test : β → Bool) (room : Nat) (ok : Bool) (x : β) :
    explore below (checking test) room ok x = (ok && (unfolding below room x).all test) := by
  induction room generalizing ok x with
  | zero => simp [explore, checking, unfolding]
  | succ room ih =>
    have each (ys : List β) (start : Bool) :
        ys.foldl (explore below (checking test) room) start =
          (start && (ys.flatMap (unfolding below room)).all test) := by
      induction ys generalizing start with
      | nil => simp
      | cons y ys ihys =>
        rw [List.foldl_cons, ihys, ih, List.flatMap_cons, List.all_append, Bool.and_assoc]
    rw [explore, checking, unfolding, List.all_cons, ← Bool.and_assoc]
    cases hok : ok && test x with
    | false => rfl
    | true =>
      show (below x).foldl _ true = _
      rw [each]

/-- With room for the rank of `x`, everything from `x` down passes if the unfolding does. -/
theorem passes_iff_unfolding (descends : ∀ x, ∀ y ∈ below x, rank y < rank x) (test : β → Bool)
    {room : Nat} {x : β} (h : rank x ≤ room) :
    Passes below test x ↔ (unfolding below room x).all test := by
  rw [List.all_eq_true]
  constructor
  · intro passes y hy
    exact passes room y hy
  · intro passes room' y hy
    exact passes y ((mem_unfolding_iff descends h).mpr (reaches_of_mem_unfolding hy))

end Traversal

end SyntaxForest
