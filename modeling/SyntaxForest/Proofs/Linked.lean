import Mathlib.Data.List.Basic
import Mathlib.Data.List.Nodup
import SyntaxForest.Forest.Walk
import SyntaxForest.Proofs.Ancestry
import SyntaxForest.Proofs.Room
import SyntaxForest.Proofs.Slots

/-!
# Linked forests

A forest stores its trees twice, as children in slots and lists and as parents in records.
`Forest.Linked` says that the two fit together in the direction that editing relies on: whoever is
stored has its holder as parent, and is stored there once.  Everything else about the trees of a
forest follows.

* `Linked.nodup_stored` — all slots and lists of a forest together store no node twice.
* `Forest.rank` falls from a node to its children, so walks have room enough (`Proofs/Room`), and
  `preorder_eq` is the recursion that they perform.
* `Linked.iterate_of_path` — what lies below a node has it as an ancestor.

The converse, that a parent stores its children, is *not* part of the invariant: a clone names a
parent that does not store it.  No operation reads a parent link without also looking at the slots,
so nothing here needs the converse.
-/

namespace SyntaxForest

namespace Forest

/-- Everything that the slots and lists of a node store, slot by slot. -/
def stored (f : Forest) (x : Link) : List NodeIndex :=
  (ChildSlot.all.map (f.child x) ++ ListSlot.all.flatMap (f.list x)).filterMap id

/-- What stands in a part of a node. -/
def occupants (f : Forest) (x : Link) (part : Part) : List Link :=
  ((f.contents? x).map (·.occupants part)).getD []

/-- The children of a node are what its slots and lists store, in structural order. -/
theorem stored_perm (f : Forest) (x : Link) : (f.stored x).Perm (f.children x) := by
  unfold stored children child list ChildSlot.all ListSlot.all
  cases f.contents? x with
  | none => simp
  | some c =>
    cases c <;>
      simp only [Contents.children, Contents.links, Contents.child?, Contents.list?,
        List.map_cons, List.map_nil, List.flatMap_cons, List.flatMap_nil, Option.bind_some,
        Option.join_some, Option.join_none, Option.getD_some, Option.getD_none,
        List.filterMap_eq_flatMap_toList, id_eq, List.cons_append, List.nil_append,
        List.append_nil, Option.toList_none, List.flatMap_append]
    case tryStatement => exact List.perm_append_comm.append_left _
    case forInLoop => exact List.perm_append_comm.trans (by rw [List.append_assoc])
    case doLoop => exact List.perm_append_comm
    all_goals exact List.Perm.refl _

/-- The invariant of editing. -/
structure Linked (f : Forest) : Prop where
  intact : f.Intact
  grounded : f.Grounded
  parents : f.ParentsExist
  /-- Whoever is stored has its holder as parent. -/
  parent_of_mem : ∀ {p x}, x ∈ f.children p → f.parent (some x) = p
  nodup_children : ∀ p, (f.children p).Nodup
  /-- Lists have no gaps, and their entries are of the kind that the list demands. -/
  entries : ∀ {p k slot a}, f.kind? p = some k → a ∈ f.list p slot →
    ∃ kind, f.kind? a = some kind ∧ ∀ demand ∈ slot.entryKind? k, kind = demand

variable {f : Forest}

theorem mem_children_iff {p : Link} {x : NodeIndex} :
    x ∈ f.children p ↔ ∃ c, f.contents? p = some c ∧ some x ∈ c.links := by
  unfold children
  cases f.contents? p with
  | none => simp
  | some c => simp [Contents.mem_children]

theorem children_of_contents? {p : Link} {c : Contents} (h : f.contents? p = some c) :
    f.children p = c.children := by
  simp [children, h]

theorem occupants_of_contents? {p : Link} {c : Contents} (h : f.contents? p = some c)
    (part : Part) : f.occupants p part = c.occupants part := by
  simp [occupants, h]

theorem occupants_child (p : Link) (slot : ChildSlot) :
    f.occupants p (.child slot) = ((f.contents? p).bind (·.child? slot)).toList := by
  unfold occupants
  cases f.contents? p <;> rfl

theorem occupants_list (p : Link) (slot : ListSlot) :
    f.occupants p (.list slot) = f.list p slot := by
  unfold occupants list
  cases f.contents? p <;> rfl

/-- A node that is stored in a list is among the children. -/
theorem mem_children_of_mem_list (slot : ListSlot) {p : Link} {x : NodeIndex}
    (h : some x ∈ f.list p slot) : x ∈ f.children p := by
  refine (f.stored_perm p).subset (List.mem_filterMap.mpr ⟨some x, ?_, rfl⟩)
  exact List.mem_append_right _ (List.mem_flatMap.mpr ⟨slot, slot.mem_all, h⟩)

/-- The occupant of a slot is among the children. -/
theorem mem_children_of_child (slot : ChildSlot) {p : Link} {x : NodeIndex}
    (h : f.child p slot = some x) : x ∈ f.children p := by
  refine (f.stored_perm p).subset (List.mem_filterMap.mpr ⟨some x, ?_, rfl⟩)
  exact List.mem_append_left _ (List.mem_map.mpr ⟨slot, slot.mem_all, h⟩)

/-- What stands in a part is among the children. -/
theorem mem_children_of_occupant (part : Part) {p : Link} {x : NodeIndex}
    (h : some x ∈ f.occupants p part) : x ∈ f.children p := by
  cases part with
  | child slot =>
    apply mem_children_of_child slot
    rw [occupants_child, Option.mem_toList] at h
    rw [child, h, Option.join_some]
  | list slot =>
    rw [occupants_list] at h
    exact mem_children_of_mem_list slot h
  | token =>
    unfold occupants at h
    cases hc : f.contents? p <;> simp [hc, Contents.occupants] at h

namespace Linked

variable (hf : f.Linked)
include hf

/-! ## Holders and parents -/

/-- A node with a parent is a node of the forest. -/
theorem contains_of_parent {x : Link} {p : NodeIndex} (hx : f.parent x = some p) :
    f.contains x := by
  rw [← hf.intact.isSome_record?]
  unfold parent at hx
  cases hr : f.record? x with
  | none => simp [hr] at hx
  | some r => rfl

theorem contains_of_mem {p : NodeIndex} {x : NodeIndex} (hx : x ∈ f.children (some p)) :
    f.contains (some x) :=
  hf.contains_of_parent (hf.parent_of_mem hx)

theorem contains_of_mem_children {p : Link} {x : NodeIndex} (hx : x ∈ f.children p) :
    f.contains (some x) := by
  cases p with
  | none => exact absurd hx List.not_mem_nil
  | some p => exact hf.contains_of_mem hx

/-- No two nodes hold the same child. -/
theorem eq_of_mem_children {p q : Link} {x : NodeIndex} (hp : x ∈ f.children p)
    (hq : x ∈ f.children q) : p = q :=
  (hf.parent_of_mem hp).symm.trans (hf.parent_of_mem hq)

/-- **All slots and lists of all nodes together store no node twice.** -/
theorem nodup_stored : ((List.range f.size).flatMap fun p => f.stored (some p)).Nodup := by
  rw [List.nodup_flatMap]
  constructor
  · intro p _
    exact (f.stored_perm (some p)).nodup_iff.mpr (hf.nodup_children (some p))
  · refine List.nodup_range.imp fun {p q} hne x hp hq => hne ?_
    have hp := (f.stored_perm (some p)).subset hp
    have hq := (f.stored_perm (some q)).subset hq
    exact Option.some.inj (hf.eq_of_mem_children hp hq)

/-- Lists have no gaps. -/
theorem none_notMem_list (p : Link) (slot : ListSlot) : none ∉ f.list p slot := by
  intro hmem
  have hc : ∃ c, f.contents? p = some c := by
    unfold list at hmem
    cases hc : f.contents? p with
    | none => simp [hc] at hmem
    | some c => exact ⟨c, rfl⟩
  obtain ⟨c, hc⟩ := hc
  obtain ⟨k, hk, -⟩ := hf.entries (kind?_of_contents? hc) hmem
  simp [kind?, header?] at hk

/-- No list has an entry twice. -/
theorem nodup_list (p : Link) (slot : ListSlot) : (f.list p slot).Nodup := by
  have stored := (f.stored_perm p).nodup_iff.mpr (hf.nodup_children p)
  rw [Forest.stored, List.filterMap_append] at stored
  have lists := (List.nodup_append.mp stored).2.1
  rw [List.filterMap_flatMap, List.nodup_flatMap] at lists
  have nodes := lists.1 slot slot.mem_all
  rw [List.Nodup, List.pairwise_filterMap] at nodes
  refine nodes.imp_of_mem fun {a b} ha _ apart same => ?_
  obtain ⟨x, rfl⟩ := Option.ne_none_iff_exists'.mp fun gap => hf.none_notMem_list p slot (gap ▸ ha)
  exact apart x rfl x same.symm rfl

/-! ## Downwards -/

/-- What lies below a node has the node as an ancestor. -/
theorem iterate_of_path {x y : NodeIndex}
    (path : Relation.ReflTransGen (fun a b => b ∈ f.below a) x y) :
    ∃ n, f.parent^[n] (some y) = some x := by
  induction path with
  | refl => exact ⟨0, rfl⟩
  | tail _ step ih =>
    obtain ⟨n, hn⟩ := ih
    refine ⟨n + 1, ?_⟩
    rw [Function.iterate_succ_apply, hf.parent_of_mem step, hn]

/-- Unfolding a node lists nothing twice. -/
theorem nodup_unfolding (room : Nat) (x : NodeIndex) :
    (Traversal.unfolding f.below room x).Nodup := by
  induction room generalizing x with
  | zero => exact List.nodup_singleton x
  | succ room ih =>
    rw [Traversal.unfolding, List.nodup_cons, List.nodup_flatMap]
    -- everything listed below `x` reaches `x` through the child it lies under
    have climbs {y z : NodeIndex} (hy : y ∈ f.below x)
        (hz : z ∈ Traversal.unfolding f.below room y) :
        ∃ n, f.parent^[n] (some z) = some y ∧ f.parent^[n + 1] (some z) = some x := by
      obtain ⟨n, hn⟩ := hf.iterate_of_path (Traversal.reaches_of_mem_unfolding hz)
      exact ⟨n, hn, by rw [Function.iterate_succ_apply', hn, hf.parent_of_mem hy]⟩
    refine ⟨?_, fun y _ => ih y, ?_⟩
    · intro hmem
      obtain ⟨y, hy, hx⟩ := List.mem_flatMap.mp hmem
      obtain ⟨n, -, hn⟩ := climbs hy hx
      exact hf.grounded.iterate_ne x n hn
    · have nodup : (f.below x).Nodup := hf.nodup_children (some x)
      refine nodup.imp_of_mem fun {y y'} hy hy' hne z hz hz' => hne ?_
      obtain ⟨n, hn, hnx⟩ := climbs hy hz
      obtain ⟨n', hn', hnx'⟩ := climbs hy' hz'
      obtain rfl : n = n' := Nat.succ.inj (hf.grounded.iterate_inj hnx hnx')
      exact Option.some.inj (hn.symm.trans hn')

end Linked

/-! ## Rank -/

/-- How many levels there can be from a node down, for all that its depth says. -/
def rank (f : Forest) (x : NodeIndex) : Nat := f.size - f.depth (some x)

theorem rank_le (f : Forest) (x : NodeIndex) : f.rank x ≤ f.size := Nat.sub_le _ _

/-- The rank falls on every way down. -/
theorem Linked.rank_lt (hf : f.Linked) (x : NodeIndex) : ∀ y ∈ f.below x, f.rank y < f.rank x := by
  intro y hy
  have deeper := depth_of_parent hf.grounded hf.parents hf.intact (hf.parent_of_mem hy)
  have bound := depth_lt hf.grounded hf.parents (hf.contains_of_mem hy)
  unfold rank
  omega

/-- A tree is higher than the trees of the children. -/
theorem Linked.height_lt_of_mem_below (hf : f.Linked) {x y : NodeIndex} (hy : y ∈ f.below x) :
    f.height (some y) < f.height (some x) := by
  have room : Traversal.levels f.below (f.size + 1) x = Traversal.levels f.below f.size x :=
    Traversal.levels_of_le hf.rank_lt (f.rank_le x) (Nat.le_succ _)
  have positive := Traversal.levels_pos f.below f.size x
  have bound := (Traversal.levels_succ_le_iff f.below f.size
    (Traversal.levels f.below f.size x - 1) x).mp (by omega) y hy
  obtain ⟨c, hc, -⟩ := mem_children_iff.mp hy
  rw [height_some, height_some, if_pos (hf.contains_of_mem hy), if_pos (contains_of_contents? hc)]
  omega

theorem Linked.height_le_of_link (hf : f.Linked) {x : Link} {c : Contents}
    (hc : f.contents? x = some c) {a : Link} (ha : a ∈ c.links) : f.height a ≤ f.height x := by
  cases a with
  | none => exact Nat.zero_le _
  | some y =>
    cases x with
    | none => cases hc
    | some x => exact Nat.le_of_lt (hf.height_lt_of_mem_below (mem_children_iff.mpr ⟨c, hc, ha⟩))

/-! ## Pre-order -/

/-- Pre-order is the unfolding of a node, with as many levels as there are nodes. -/
theorem preorder_some {x : NodeIndex} (hx : f.contains (some x)) :
    f.preorder (some x) = Traversal.unfolding f.below f.size x := by
  rw [preorder, visit]
  simp only [hx, if_true]
  rw [Traversal.walk_eq_explore, List.foldl_cons, List.foldl_nil, Traversal.explore_collect,
    List.append_nil, List.reverse_reverse]

theorem preorder_of_not_contains {x : Link} (hx : f.contains x = false) : f.preorder x = [] := by
  rw [preorder, visit.eq_def]
  cases x with
  | none => rfl
  | some x => simp [hx]

namespace Linked

variable (hf : f.Linked)
include hf

/-- **Pre-order is the node followed by the pre-orders of its children.** -/
theorem preorder_eq {x : NodeIndex} (hx : f.contains (some x)) :
    f.preorder (some x) = x :: (f.below x).flatMap fun y => f.preorder (some y) := by
  rw [preorder_some hx, Traversal.unfolding_eq hf.rank_lt (f.rank_le x)]
  refine congrArg (x :: ·) (List.flatMap_congr fun y hy => ?_)
  rw [preorder_some (hf.contains_of_mem hy)]

/-- Pre-order lists what lies below a node. -/
theorem mem_preorder_iff {x y : NodeIndex} (hx : f.contains (some x)) :
    y ∈ f.preorder (some x) ↔ Relation.ReflTransGen (fun a b => b ∈ f.below a) x y := by
  rw [preorder_some hx, Traversal.mem_unfolding_iff hf.rank_lt (f.rank_le x)]

theorem mem_preorder_self {x : NodeIndex} (hx : f.contains (some x)) :
    x ∈ f.preorder (some x) :=
  (hf.mem_preorder_iff hx).mpr .refl

theorem nodup_preorder (x : Link) : (f.preorder x).Nodup := by
  cases hx : f.contains x with
  | false =>
    rw [preorder_of_not_contains hx]
    exact List.nodup_nil
  | true =>
    cases x with
    | none => simp at hx
    | some x =>
      rw [preorder_some hx]
      exact hf.nodup_unfolding f.size x

/-- What pre-order lists are nodes. -/
theorem contains_of_mem_preorder {x : Link} {y : NodeIndex} (hy : y ∈ f.preorder x) :
    f.contains (some y) := by
  cases hx : f.contains x with
  | false => simp [preorder_of_not_contains hx] at hy
  | true =>
    cases x with
    | none => simp at hx
    | some x =>
      rw [hf.mem_preorder_iff hx] at hy
      rcases Relation.ReflTransGen.cases_tail hy with rfl | ⟨z, -, hz⟩
      · exact hx
      · exact hf.contains_of_mem hz

end Linked

end Forest

end SyntaxForest
