import SyntaxForest.Proofs.Runs

/-!
# Visiting is a recursion

A visitor is called on a node, and if it says so on the children of the node, from first to last,
each of them visited in the same way before the next.  `Traversal.Visits` is this recursion, with
the calls that it makes and the state in which each call is made.  It knows of no stack, and of no
bound on the levels below a node.

* `Visits.unique`, `exists_visits` — the recursion has one outcome, whatever the visitor answers;
* `Visits.foldl_explore` — with room for the ranks of its entries, a walk comes to the same state;
* `Linked.called_eq` — which nodes are called, if the answers depend on the nodes alone.

Calls are nothing that a walk hands out.  A visitor that notes its calls (`recording`) shows them,
and it is a visitor like every other: its recursion is the one it notes (`Visits.recording`).
-/

namespace SyntaxForest

namespace Traversal

variable {β σ : Type}

/-- Some things are visited by recursion from first to last.  The calls of the visitor come with the
states in which they are made; the states around them are that before and that after all. -/
inductive Visits (below : β → List β) (visit : σ → β → σ × Bool) :
    σ → List β → List (σ × β) → σ → Prop where
  | done (state : σ) : Visits below visit state [] [] state
  | declined {state next last : σ} {x : β} {rest : List β} {calls : List (σ × β)}
    (answer : visit state x = (next, false)) (after : Visits below visit next rest calls last) :
    Visits below visit state (x :: rest) ((state, x) :: calls) last
  | granted {state next middle last : σ} {x : β} {rest : List β} {inner calls : List (σ × β)}
    (answer : visit state x = (next, true))
    (inside : Visits below visit next (below x) inner middle)
    (after : Visits below visit middle rest calls last) :
    Visits below visit state (x :: rest) ((state, x) :: (inner ++ calls)) last

/-- The visitor, taking down the calls that it gets. -/
def recording (visit : σ → β → σ × Bool) (noted : σ × List (σ × β)) (x : β) :
    (σ × List (σ × β)) × Bool :=
  (((visit noted.1 x).1, noted.2 ++ [(noted.1, x)]), (visit noted.1 x).2)

variable {below : β → List β} {visit : σ → β → σ × Bool} {state last : σ} {xs : List β}
  {calls : List (σ × β)}

/-- **The recursion has no more than one outcome.** -/
theorem Visits.unique (h : Visits below visit state xs calls last) {calls' : List (σ × β)}
    {last' : σ} (h' : Visits below visit state xs calls' last') :
    calls' = calls ∧ last' = last := by
  induction h generalizing calls' last' with
  | done => cases h'; exact ⟨rfl, rfl⟩
  | declined answer _ ih =>
    cases h' with
    | declined answer' after' =>
      cases answer.symm.trans answer'
      obtain ⟨rfl, rfl⟩ := ih after'
      exact ⟨rfl, rfl⟩
    | granted answer' => cases answer.symm.trans answer'
  | granted answer _ _ ihInside ihAfter =>
    cases h' with
    | declined answer' => cases answer.symm.trans answer'
    | granted answer' inside' after' =>
      cases answer.symm.trans answer'
      obtain ⟨rfl, rfl⟩ := ihInside inside'
      obtain ⟨rfl, rfl⟩ := ihAfter after'
      exact ⟨rfl, rfl⟩

/-- **Taking the calls down, a visitor gets the same calls** and notes them in their order. -/
theorem Visits.recording (h : Visits below visit state xs calls last) (noted : List (σ × β)) :
    ∃ calls', Visits below (recording visit) (state, noted) xs calls' (last, noted ++ calls) := by
  induction h generalizing noted with
  | done => exact ⟨[], by simpa using .done _⟩
  | @declined state next _ x _ calls answer _ ih =>
    obtain ⟨after, hafter⟩ := ih (noted ++ [(state, x)])
    rw [List.append_assoc] at hafter
    exact ⟨_, .declined (by simp [Traversal.recording, answer]) hafter⟩
  | @granted state next _ _ x _ inner calls answer _ _ ihInside ihAfter =>
    obtain ⟨inside, hinside⟩ := ihInside (noted ++ [(state, x)])
    obtain ⟨after, hafter⟩ := ihAfter (noted ++ [(state, x)] ++ inner)
    have order : noted ++ [(state, x)] ++ inner ++ calls =
        noted ++ (state, x) :: (inner ++ calls) := by simp
    rw [order] at hafter
    exact ⟨_, .granted (by simp [Traversal.recording, answer]) hinside hafter⟩

section

variable {rank : β → Nat} (descends : ∀ x, ∀ y ∈ below x, rank y < rank x)
include descends

/-- **Where a rank falls on every way down, the recursion comes to an end.** -/
theorem exists_visits (visit : σ → β → σ × Bool) {bound : Nat} {xs : List β}
    (bounded : ∀ x ∈ xs, rank x < bound) (state : σ) :
    ∃ calls last, Visits below visit state xs calls last := by
  induction bound generalizing xs state with
  | zero =>
    cases xs with
    | nil => exact ⟨_, _, .done state⟩
    | cons x _ => exact absurd (bounded x List.mem_cons_self) (Nat.not_lt_zero _)
  | succ bound ihBound =>
    induction xs generalizing state with
    | nil => exact ⟨_, _, .done state⟩
    | cons x xs ih =>
      obtain ⟨first, rest⟩ := List.forall_mem_cons.mp bounded
      obtain ⟨⟨next, grants⟩, answer⟩ : ∃ next, visit state x = next := ⟨_, rfl⟩
      cases grants with
      | false =>
        obtain ⟨_, _, after⟩ := ih rest next
        exact ⟨_, _, .declined answer after⟩
      | true =>
        have lower : ∀ y ∈ below x, rank y < bound := fun y hy =>
          Nat.lt_of_lt_of_le (descends x y hy) (Nat.le_of_lt_succ first)
        obtain ⟨_, middle, inside⟩ := ihBound lower next
        obtain ⟨_, _, after⟩ := ih rest middle
        exact ⟨_, _, .granted answer inside after⟩

/-- **Exploring with enough room comes to the state of the recursion.** -/
theorem Visits.foldl_explore (h : Visits below visit state xs calls last) {room : Nat}
    (enough : ∀ x ∈ xs, rank x ≤ room) : xs.foldl (explore below visit room) state = last := by
  induction h generalizing room with
  | done => rfl
  | declined answer _ ih =>
    rw [List.foldl_cons, ← ih fun y hy => enough y (List.mem_cons_of_mem _ hy)]
    congr 1
    cases room <;> simp only [explore, answer]
  | @granted _ _ _ _ x _ _ _ answer inside _ ihInside ihAfter =>
    have first : rank x ≤ room := enough x List.mem_cons_self
    rw [List.foldl_cons, ← ihAfter fun y hy => enough y (List.mem_cons_of_mem _ hy)]
    congr 1
    cases room with
    | zero =>
      -- without room there is nothing below either
      rw [below_eq_nil descends (Nat.le_zero.mp first)] at inside
      cases inside
      simp only [explore, answer]
    | succ room =>
      simp only [explore, answer]
      exact ihInside fun y hy => Nat.le_of_lt_succ (Nat.lt_of_lt_of_le (descends x y hy) first)

end

end Traversal

namespace Forest

open Traversal

variable {f : Forest}

/-- Where visiting a tree begins: at its root, if that is a node. -/
def entrance (f : Forest) (root : Link) : List NodeIndex :=
  if f.contains root then root.toList else []

namespace Linked

variable (hf : f.Linked)
include hf

/-- Visiting a tree comes to the state of the recursion. -/
theorem visit_eq {σ : Type} {visitor : σ → NodeIndex → σ × Bool} {root : Link} {state last : σ}
    {calls : List (σ × NodeIndex)}
    (h : Visits f.below visitor state (f.entrance root) calls last) :
    f.visit visitor root state = last := by
  have enough : ∀ x ∈ f.entrance root, f.rank x ≤ f.size := fun x _ => f.rank_le x
  rw [← h.foldl_explore hf.rank_lt enough, visit.eq_def, entrance]
  cases root with
  | none => rfl
  | some x =>
    cases hx : f.contains (some x) with
    | false => simp [hx]
    | true => simp [hx, walk_eq_explore]

/-! ## The nodes that are called -/

/-- An ancestor of a node in a tree stands in the tree, or is an ancestor of its root. -/
theorem path_or_mem_ancestors {x y a : NodeIndex}
    (path : Relation.ReflTransGen (fun a b => b ∈ f.below a) x y)
    (above : a ∈ f.ancestors (some y)) :
    Relation.ReflTransGen (fun a b => b ∈ f.below a) x a ∨ a ∈ f.ancestors (some x) := by
  induction path with
  | refl => exact .inr above
  | tail path step ih =>
    rw [ancestors_eq hf.grounded hf.parents hf.intact (hf.parent_of_mem step),
      List.mem_cons] at above
    rcases above with rfl | above
    · exact .inl path
    · exact ih above

/-- No tree lists an ancestor of its root. -/
theorem notMem_preorder_of_mem_ancestors {x a : NodeIndex} (hx : f.contains (some x))
    (above : a ∈ f.ancestors (some x)) : a ∉ f.preorder (some x) := by
  intro listed
  obtain ⟨m, hm⟩ := hf.iterate_of_path ((hf.mem_preorder_iff hx).mp listed)
  obtain ⟨n, hn⟩ := (mem_ancestors hf.grounded hf.parents hf.intact).mp above
  refine hf.grounded.iterate_ne x (m + n) ?_
  rw [Nat.add_assoc, Function.iterate_add_apply, hn, hm]

end Linked

/-- Whatever stands above a node within a tree is granted. -/
def GrantedAbove (f : Forest) (grants : NodeIndex → Bool) (root : Link) (x : NodeIndex) : Prop :=
  ∀ a ∈ f.ancestors (some x), a ∈ f.preorder root → grants a

instance (f : Forest) (grants : NodeIndex → Bool) (root : Link) :
    DecidablePred (f.GrantedAbove grants root) :=
  fun _ => List.decidableBAll _ _

namespace Linked

variable (hf : f.Linked) {grants : NodeIndex → Bool} {x : NodeIndex}
  (hx : f.contains (some x))
include hf hx

theorem grantedAbove_self : f.GrantedAbove grants (some x) x := fun _ above listed =>
  absurd listed (hf.notMem_preorder_of_mem_ancestors hx above)

/-- Below a child the way leads through its parent, and then through the tree of the child. -/
theorem grantedAbove_iff {y z : NodeIndex} (hy : y ∈ f.below x) (hz : z ∈ f.preorder (some y)) :
    f.GrantedAbove grants (some x) z ↔ grants x ∧ f.GrantedAbove grants (some y) z := by
  have known := hf.contains_of_mem hy
  have path := (hf.mem_preorder_iff known).mp hz
  have above : x ∈ f.ancestors (some z) := by
    obtain ⟨n, hn⟩ := hf.iterate_of_path path
    refine (mem_ancestors hf.grounded hf.parents hf.intact).mpr ⟨n, ?_⟩
    rw [Function.iterate_succ_apply', hn, hf.parent_of_mem hy]
  constructor
  · intro granted
    refine ⟨granted x above (hf.mem_preorder_self hx), fun a ha listed => granted a ha ?_⟩
    exact (hf.mem_preorder_iff hx).mpr (.head hy ((hf.mem_preorder_iff known).mp listed))
  · rintro ⟨first, granted⟩ a ha listed
    rcases hf.path_or_mem_ancestors path ha with inside | outside
    · exact granted a ha ((hf.mem_preorder_iff known).mpr inside)
    · rw [ancestors_eq hf.grounded hf.parents hf.intact (hf.parent_of_mem hy),
        List.mem_cons] at outside
      rcases outside with rfl | outside
      · exact first
      · exact absurd listed (hf.notMem_preorder_of_mem_ancestors hx outside)

/-- Of the tree of a node that is declined, the node is left. -/
theorem filter_grantedAbove_of_declined (declined : grants x = false) :
    (f.preorder (some x)).filter (f.GrantedAbove grants (some x)) = [x] := by
  have own : f.GrantedAbove grants (some x) x := hf.grantedAbove_self hx
  rw [hf.preorder_eq hx, List.filter_cons, if_pos (decide_eq_true own), List.cons.injEq,
    and_iff_right rfl, List.filter_eq_nil_iff]
  intro z hz granted
  obtain ⟨y, hy, hz⟩ := List.mem_flatMap.mp hz
  have first := ((hf.grantedAbove_iff hx hy hz).mp (of_decide_eq_true granted)).1
  rw [declined] at first
  cases first

/-- Of the tree of a node that is granted, the node is left and what is left of the trees of its
children. -/
theorem filter_grantedAbove_of_granted (granted : grants x) :
    (f.preorder (some x)).filter (f.GrantedAbove grants (some x)) =
      x :: (f.below x).flatMap fun y =>
        (f.preorder (some y)).filter (f.GrantedAbove grants (some y)) := by
  have own : f.GrantedAbove grants (some x) x := hf.grantedAbove_self hx
  rw [hf.preorder_eq hx, List.filter_cons, if_pos (decide_eq_true own), List.filter_flatMap]
  refine congrArg (x :: ·) (List.flatMap_congr fun y hy => List.filter_congr fun z hz => ?_)
  rw [decide_eq_decide, hf.grantedAbove_iff hx hy hz, and_iff_right granted]

omit hx in
/-- **The nodes that are called**, if each answer depends on the node alone. -/
theorem called_eq {σ : Type} {visitor : σ → NodeIndex → σ × Bool}
    (answers : ∀ state x, (visitor state x).2 = grants x) {state last : σ} {xs : List NodeIndex}
    {calls : List (σ × NodeIndex)} (h : Visits f.below visitor state xs calls last)
    (known : ∀ x ∈ xs, f.contains (some x)) :
    calls.map Prod.snd =
      xs.flatMap fun x => (f.preorder (some x)).filter (f.GrantedAbove grants (some x)) := by
  induction h with
  | done => rfl
  | @declined state _ _ x _ _ answer _ ih =>
    obtain ⟨first, rest⟩ := List.forall_mem_cons.mp known
    have declined : grants x = false := by rw [← answers state, answer]
    rw [List.map_cons, List.flatMap_cons, hf.filter_grantedAbove_of_declined first declined,
      ih rest]
    rfl
  | @granted state _ _ _ x _ _ _ answer _ _ ihInside ihAfter =>
    obtain ⟨first, rest⟩ := List.forall_mem_cons.mp known
    have granted : grants x = true := by rw [← answers state, answer]
    rw [List.map_cons, List.map_append, List.flatMap_cons,
      hf.filter_grantedAbove_of_granted first granted, ihAfter rest,
      ihInside fun y hy => hf.contains_of_mem hy]
    rfl

end Linked

theorem entrance_of_contains {root : Link} (h : f.contains root) :
    ∃ x, root = some x ∧ f.entrance root = [x] := by
  cases root with
  | none => cases h
  | some x => exact ⟨x, rfl, if_pos h⟩

end Forest

/-- **A tree is visited by recursion, whatever the visitor is.**  The visitor is called on the root,
if that is a node, and where it says so on the children of a node from first to last, each of them
visited in this way before the next.  There is one list of calls, each made in one state, that comes
of this; visiting makes these calls and ends in the state that they end in.  If the answers depend
on the nodes alone, the calls are on the nodes of the pre-order that have no declined ancestor
within the tree, in their order and once each. -/
theorem Reached.visit_is_recursion {f : Forest} {loose : List NodeIndex} (h : Reached f loose)
    {σ : Type} (visitor : σ → NodeIndex → σ × Bool) (root : Link) (state : σ) :
    ∃ calls last,
      (∀ calls' last', Traversal.Visits f.below visitor state (f.entrance root) calls' last' ↔
        calls' = calls ∧ last' = last) ∧
      f.visit visitor root state = last ∧
      f.visit (Traversal.recording visitor) root (state, []) = (last, calls) ∧
      ∀ grants : NodeIndex → Bool, (∀ state x, (visitor state x).2 = grants x) →
        calls.map Prod.snd = (f.preorder root).filter (f.GrantedAbove grants root) ∧
          (calls.map Prod.snd).Nodup := by
  have hf := h.tended.linked
  obtain ⟨calls, last, visits⟩ := Traversal.exists_visits hf.rank_lt visitor
    (fun x (_ : x ∈ f.entrance root) => Nat.lt_succ_of_le (f.rank_le x)) state
  obtain ⟨_, noted⟩ := visits.recording []
  refine ⟨calls, last, fun calls' last' => ⟨visits.unique, ?_⟩, hf.visit_eq visits,
    hf.visit_eq noted, fun grants answers => ?_⟩
  · rintro ⟨rfl, rfl⟩
    exact visits
  · have called : calls.map Prod.snd =
        (f.preorder root).filter (f.GrantedAbove grants root) := by
      cases known : f.contains root with
      | false =>
        rw [Forest.entrance, known] at visits
        cases visits
        rw [Forest.preorder_of_not_contains known]
        rfl
      | true =>
        obtain ⟨x, rfl, start⟩ := Forest.entrance_of_contains known
        rw [start] at visits
        rw [hf.called_eq answers visits (by simpa using known), List.flatMap_singleton]
    exact ⟨called, called ▸ (hf.nodup_preorder root).filter _⟩

/-- A visitor that counts its calls and declines one node. -/
def Traversal.counting (stop : NodeIndex) (count : Nat) (x : NodeIndex) : Nat × Bool :=
  (count + 1, x != stop)

/-- In the block that holds a loop, the block and the loop are called, and not what the loop
holds. -/
theorem visit_is_recursion_nested :
    (∀ count x, (Traversal.counting 1 count x).2 = (x != 1)) ∧
    Traversal.Visits (Command.perform Command.nested).1.below (Traversal.counting 1) 0 [0]
      [(0, 0), (1, 1)] 2 ∧
    [0, 1] = ((Command.perform Command.nested).1.preorder (some 0)).filter
      ((Command.perform Command.nested).1.GrantedAbove (· != 1) (some 0)) ∧
    (Command.perform Command.nested).1.preorder (some 0) = [0, 1, 2] := by
  have answers : ∀ count x, (Traversal.counting 1 count x).2 = (x != 1) := fun _ _ => rfl
  obtain ⟨calls, last, visits, -, noted, called⟩ :=
    (reached_perform Command.nested).visit_is_recursion (Traversal.counting 1) (some 0) 0
  have start : (Command.perform Command.nested).1.entrance (some 0) = [0] := by decide +kernel
  have run : (Command.perform Command.nested).1.visit
      (Traversal.recording (Traversal.counting 1)) (some 0) (0, []) =
        (2, [(0, 0), (1, 1)]) := by decide +kernel
  obtain ⟨rfl, rfl⟩ := Prod.mk.inj (noted.symm.trans run)
  rw [start] at visits
  exact ⟨answers, (visits _ _).mpr ⟨rfl, rfl⟩, (called _ answers).1, by decide +kernel⟩

end SyntaxForest
