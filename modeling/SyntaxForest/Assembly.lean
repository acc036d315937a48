import Std.Data.TreeMap
import SyntaxForest.Recipe
import SyntaxForest.Traversal

/-!
# Assembly from the bottom

Building a result for a tree from the results for its subtrees, from an explicit stack.  A job is
opened, which puts the jobs for its parts on the stack above it, and closed when they are done.
Finished results lie on a desk under the index of their node, until the recipe of a parent takes
them away.

A desk has one place for each node.  In a tree nothing is ever in the way there; where a node
stands in two places, its second result replaces the first, and the second to ask for it finds
nothing.  `Assembly.byRecursion` is the plain recursion that the stack performs on a tree.
-/

namespace SyntaxForest

/-- Finished results by node. -/
abbrev Desk (α : Type) := Std.TreeMap Nat α

/-- Follow a recipe with the parts on a desk, taking away each that is used. -/
def Recipe.onDesk {α β : Type} : Recipe α β → Desk α → Except TreeError (β × Desk α)
  | .done result, desk => .ok (result, desk)
  | .fail error, _ => .error error
  | .need none _, _ => .error (.unknownNode none)
  | .need (some child) next, desk =>
    match desk[child]? with
    | some part => (next part).onDesk (desk.erase child)
    | none => .error (.unknownNode child)

/-- A way of building results of type `α` for jobs of type `β`. -/
structure Assembly (α β : Type) where
  /-- The node that a job is about. -/
  node : β → NodeIndex
  /-- The jobs whose results go into the result of a job. -/
  parts : β → Except TreeError (List β)
  /-- How the result of a job is made of those of its parts. -/
  recipe : β → Recipe α α

namespace Assembly

variable {α β : Type}

/-- The jobs below a job; none if asking for them is an error. -/
def below (a : Assembly α β) (job : β) : List β :=
  match a.parts job with
  | .ok parts => parts
  | .error _ => []

/-- What is still to do: open a job, with room for some levels below it, or close it. -/
inductive Task (β : Type) where
  | opening (room : Nat) (job : β)
  | closing (job : β)

/-- The number of steps that a task stands for: every job is opened and closed. -/
def Task.steps (a : Assembly α β) : Task β → Nat
  | .opening room job => 2 * (Traversal.unfolding a.below room job).length
  | .closing _ => 1

/-- The number of steps that a stack of tasks stands for. -/
def pending (a : Assembly α β) : List (Task β) → Nat
  | [] => 0
  | task :: rest => task.steps a + pending a rest

theorem pending_append (a : Assembly α β) (above rest : List (Task β)) :
    a.pending (above ++ rest) = a.pending above + a.pending rest := by
  induction above with
  | nil => exact (Nat.zero_add _).symm
  | cons task above ih => rw [List.cons_append, pending, pending, ih, Nat.add_assoc]

/-- The tasks that open the parts of a job. -/
def openings (room : Nat) (parts : List β) : List (Task β) :=
  match room with
  | 0 => []
  | room + 1 => parts.map (.opening room)

/-- Opening a job turns it into the jobs for its parts and its closing, which together are one step
less. -/
theorem pending_openings (a : Assembly α β) (room : Nat) {job : β} {parts : List β}
    (h : a.parts job = .ok parts) :
    a.pending (openings room parts) + 2 = (Task.opening room job).steps a := by
  cases room with
  | zero => rfl
  | succ room =>
    have sum : ∀ jobs : List β, a.pending (jobs.map (Task.opening room)) =
        2 * (jobs.flatMap (Traversal.unfolding a.below room)).length := by
      intro jobs
      induction jobs with
      | nil => rfl
      | cons j jobs ih =>
        simp only [pending, List.map_cons, List.flatMap_cons, List.length_append, ih, Task.steps]
        omega
    simp only [openings, sum, Task.steps, Traversal.unfolding, below, h, List.length_cons]
    omega

/-- Perform the tasks of a stack from the top. -/
def perform (a : Assembly α β) (tasks : List (Task β)) (desk : Desk α) :
    Except TreeError (Desk α) :=
  match tasks with
  | [] => .ok desk
  | .closing job :: rest =>
    match (a.recipe job).onDesk desk with
    | .ok (result, desk) => perform a rest (desk.insert (a.node job) result)
    | .error e => .error e
  | .opening room job :: rest =>
    match _h : a.parts job with
    | .ok parts => perform a (openings room parts ++ .closing job :: rest) desk
    | .error e => .error e
termination_by a.pending tasks
decreasing_by
  · simp [pending, Task.steps]
  · have := a.pending_openings room _h
    rw [pending_append]
    simp only [pending, Task.steps] at *
    omega

/-- The result of a job, with room for a number of levels below it. -/
def run (a : Assembly α β) (room : Nat) (job : β) : Except TreeError α := do
  match (← a.perform [.opening room job] ∅)[a.node job]? with
  | some result => .ok result
  | none => .error (.unknownNode (a.node job))

/-- The result of a job by recursion: first the results of its parts in order, then its own from
them. -/
def byRecursion (a : Assembly α β) : Nat → β → Except TreeError α
  | room, job => do
    let parts ← a.parts job
    let results ← match room with
      | 0 => pure []
      | room + 1 => parts.mapM fun part => do pure (a.node part, ← a.byRecursion room part)
    (a.recipe job).withParts fun child =>
      match child.bind fun c => results.lookup c with
      | some result => .ok result
      | none => .error (.unknownNode child)

end Assembly

end SyntaxForest
