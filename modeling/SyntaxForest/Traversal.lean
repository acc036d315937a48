/-!
# Walks from an explicit stack

A walk over things that have further things below them, such as the nodes of a tree, with a list of
what is still to visit instead of recursion.  `below` need not be well-founded: every entry of the
stack carries its *room*, the number of levels that may still be opened beneath it, and with room
for the height of a tree a walk leaves nothing out.

* `unfolding` lists what a walk can reach, in pre-order; its length is what a walk has before it;
* `walk` visits from a stack, and `explore` is the recursion that it performs
  (`walk_eq_explore`).
-/

namespace SyntaxForest

namespace Traversal

variable {β σ : Type}

/-- Everything within a number of levels below `x`, in pre-order, with `x` first. -/
def unfolding (below : β → List β) : Nat → β → List β
  | 0, x => [x]
  | room + 1, x => x :: (below x).flatMap (unfolding below room)

/-- The entries that open beneath an entry. -/
def expand (below : β → List β) : Nat × β → List (Nat × β)
  | (0, _) => []
  | (room + 1, x) => (below x).map (room, ·)

/-- The number of visits that a stack still has before it. -/
def pending (below : β → List β) (stack : List (Nat × β)) : Nat :=
  (stack.flatMap fun entry => unfolding below entry.1 entry.2).length

/-- An entry on top of the stack adds its unfolding. -/
theorem pending_cons (below : β → List β) (entry : Nat × β) (stack : List (Nat × β)) :
    pending below (entry :: stack) =
      (unfolding below entry.1 entry.2).length + pending below stack := by
  simp [pending]

/-- Two stacks on each other stand for the steps of both. -/
theorem pending_append (below : β → List β) (left right : List (Nat × β)) :
    pending below (left ++ right) = pending below left + pending below right := by
  simp [pending]

/-- Opening an entry leaves one visit less than the entry itself stood for. -/
theorem pending_expand (below : β → List β) (entry : Nat × β) :
    pending below (expand below entry) + 1 = (unfolding below entry.1 entry.2).length := by
  obtain ⟨room, x⟩ := entry
  cases room with
  | zero => rfl
  | succ room => simp [expand, unfolding, pending, List.flatMap_map]

/-- Visit the entries of a stack from the top.  The visitor sees what it has gathered so far, and
decides whether what lies below is visited next or left out. -/
def walk (below : β → List β) (visit : σ → β → σ × Bool) (stack : List (Nat × β)) (state : σ) :
    σ :=
  match stack with
  | [] => state
  | entry :: rest =>
    match visit state entry.2 with
    | (state, true) => walk below visit (expand below entry ++ rest) state
    | (state, false) => walk below visit rest state
termination_by pending below stack
decreasing_by
  · have := pending_expand below entry
    rw [pending_append, pending_cons]
    omega
  · have := pending_expand below entry
    rw [pending_cons]
    omega

/-- Visit `x`, and if the visitor says so, explore what lies below it from first to last. -/
def explore (below : β → List β) (visit : σ → β → σ × Bool) : Nat → σ → β → σ
  | 0, state, x => (visit state x).1
  | room + 1, state, x =>
    match visit state x with
    | (state, true) => (below x).foldl (explore below visit room) state
    | (state, false) => state

/-- A walk explores the entries of its stack one after the other. -/
theorem walk_eq_explore (below : β → List β) (visit : σ → β → σ × Bool)
    (stack : List (Nat × β)) (state : σ) :
    walk below visit stack state =
      stack.foldl (fun s entry => explore below visit entry.1 s entry.2) state := by
  fun_induction walk below visit stack state with
  | case1 => rfl
  | case2 state entry rest next h ih =>
    obtain ⟨room, x⟩ := entry
    rw [ih, List.foldl_append, List.foldl_cons]
    cases room with
    | zero => simp_all [expand, explore]
    | succ room => simp_all [expand, explore, List.foldl_map]
  | case3 state entry rest next h ih =>
    obtain ⟨room, x⟩ := entry
    rw [ih, List.foldl_cons]
    cases room with
    | zero => simp_all [explore]
    | succ room => simp_all [explore]

end Traversal

end SyntaxForest
