import Mathlib.Data.List.Nodup
import Mathlib.Logic.Function.Iterate
import SyntaxForest.Proofs.Intact

/-!
# Following parents

The chain of parents of a node, and what an edit may do to it without closing a circle.

`Forest.Grounded` says that every chain comes to an end.  It is stated with iterates of `parent`,
free of any bound; that the bound inside `Forest.lineage` cuts nothing off is then a theorem
(`mem_ancestors`, `ancestors_eq`), by counting: the links of a chain are different nodes, so there
are no more of them than there are nodes.

An edit hands some nodes to one new parent and lets others go.  `Grounded.of_moved` is the one
argument behind every such edit: the chain of the new parent avoids the nodes that are moved, hence
it is still the old one, and each other chain either is an old one or runs into it.
-/

namespace SyntaxForest

namespace Forest

/-- Following parents from a link comes to an end. -/
def Ends (f : Forest) (x : Link) : Prop := ∃ n, f.parent^[n] x = none

/-- Following parents comes to an end, wherever it starts. -/
def Grounded (f : Forest) : Prop := ∀ x, f.Ends x

variable {f : Forest}

@[simp] theorem parent_none : f.parent none = none := rfl

@[simp] theorem iterate_parent_none (n : Nat) : f.parent^[n] none = none :=
  Function.iterate_fixed parent_none n

theorem Ends.none : f.Ends none := ⟨0, rfl⟩

theorem Ends.of_parent {x : Link} (h : f.Ends (f.parent x)) : f.Ends x := by
  obtain ⟨n, hn⟩ := h
  exact ⟨n + 1, hn⟩

/-- A chain that has ended does not go on. -/
theorem iterate_parent_of_le {m n : Nat} {x : Link} (h : f.parent^[m] x = none) (hmn : m ≤ n) :
    f.parent^[n] x = none := by
  obtain ⟨k, rfl⟩ := Nat.exists_eq_add_of_le hmn
  rw [Nat.add_comm, Function.iterate_add_apply, h, iterate_parent_none]

/-- No node comes back to itself. -/
theorem Grounded.iterate_ne (hf : f.Grounded) (x : NodeIndex) (n : Nat) :
    f.parent^[n + 1] (some x) ≠ some x := by
  intro circle
  obtain ⟨m, hm⟩ := hf (some x)
  have again (k : Nat) : f.parent^[(n + 1) * k] (some x) = some x := by
    rw [Function.iterate_mul]
    exact Function.iterate_fixed circle k
  have ended := iterate_parent_of_le hm (Nat.le_mul_of_pos_left m (Nat.succ_pos n))
  rw [again m] at ended
  exact Option.some_ne_none x ended

/-- The links of a chain are different from each other. -/
theorem Grounded.iterate_inj (hf : f.Grounded) {x : Link} {y : NodeIndex} {m n : Nat}
    (hm : f.parent^[m] x = some y) (hn : f.parent^[n] x = some y) : m = n := by
  wlog hlt : m < n generalizing m n
  · rcases Nat.lt_or_ge n m with h | h
    · exact (this hn hm h).symm
    · omega
  obtain ⟨k, rfl⟩ := Nat.exists_eq_add_of_lt hlt
  rw [show m + k + 1 = (k + 1) + m by omega, Function.iterate_add_apply, hm] at hn
  exact absurd hn (hf.iterate_ne y k)

/-! ## The bounded chain -/

/-- The links that a bounded chain lists. -/
theorem mem_lineage {bound : Nat} {x : Link} {y : NodeIndex} :
    y ∈ f.lineage bound x ↔ ∃ n < bound, f.parent^[n] x = some y := by
  induction bound generalizing x with
  | zero => simp [lineage]
  | succ bound ih =>
    cases x with
    | none => simp [lineage]
    | some x =>
      rw [lineage, List.mem_cons, ih]
      constructor
      · rintro (rfl | ⟨n, hn, hy⟩)
        · exact ⟨0, Nat.succ_pos _, rfl⟩
        · exact ⟨n + 1, Nat.succ_lt_succ hn, hy⟩
      · rintro ⟨n, hn, hy⟩
        cases n with
        | zero => exact Or.inl (Option.some.inj hy).symm
        | succ n => exact Or.inr ⟨n, Nat.lt_of_succ_lt_succ hn, hy⟩

/-- A chain that goes on to a place has a link for it and for every place before. -/
theorem length_lineage {n : Nat} {x : Link} (h : f.parent^[n] x ≠ none) :
    (f.lineage (n + 1) x).length = n + 1 := by
  induction n generalizing x with
  | zero =>
    cases x with
    | none => simp at h
    | some x => rfl
  | succ n ih =>
    cases x with
    | none => simp at h
    | some x => rw [lineage, List.length_cons, ih h]

/-- A bounded chain repeats no link. -/
theorem Grounded.nodup_lineage (hf : f.Grounded) (bound : Nat) (x : Link) :
    (f.lineage bound x).Nodup := by
  induction bound generalizing x with
  | zero => exact List.nodup_nil
  | succ bound ih =>
    cases x with
    | none => exact List.nodup_nil
    | some x =>
      rw [lineage, List.nodup_cons, mem_lineage]
      refine ⟨?_, ih _⟩
      rintro ⟨n, -, hn⟩
      exact hf.iterate_ne x n hn

/-- A wider bound lists the same links when the chain is over within the narrower one. -/
theorem lineage_of_le {m n : Nat} {x : Link} (h : f.parent^[m] x = none) (hmn : m ≤ n) :
    f.lineage n x = f.lineage m x := by
  induction m generalizing n x with
  | zero =>
    obtain rfl : x = none := h
    cases n <;> rfl
  | succ m ih =>
    obtain ⟨n, rfl⟩ : ∃ k, n = k + 1 := ⟨n - 1, by omega⟩
    cases x with
    | none => rfl
    | some x => rw [lineage, lineage, ih h (Nat.le_of_succ_le_succ hmn)]

/-- Every parent is a node of the forest. -/
def ParentsExist (f : Forest) : Prop := ∀ {x p}, f.parent x = some p → f.contains (some p)

/-- **A chain of parents has at most as many links as the forest has nodes.** -/
theorem Grounded.iterate_size (hf : f.Grounded) (hp : f.ParentsExist) {x : Link}
    (hx : ∀ y ∈ x, f.contains (some y)) : f.parent^[f.size] x = none := by
  by_contra long
  -- one link more than there are nodes, all of them nodes, and none twice
  have nodes : f.lineage (f.size + 1) x ⊆ List.range f.size := by
    intro y hy
    obtain ⟨n, -, hn⟩ := mem_lineage.mp hy
    rw [List.mem_range, ← contains_some]
    cases n with
    | zero => exact hx y hn
    | succ n =>
      rw [Function.iterate_succ_apply'] at hn
      exact hp hn
  have short := (hf.nodup_lineage (f.size + 1) x).length_le_of_subset nodes
  rw [length_lineage long, List.length_range] at short
  omega

/-! ## Ancestors -/

/-- What the bound inside `ancestors` comes to: it is no bound. -/
theorem mem_ancestors (hf : f.Grounded) (hp : f.ParentsExist) (hi : f.Intact) {x : Link}
    {y : NodeIndex} : y ∈ f.ancestors x ↔ ∃ n, f.parent^[n + 1] x = some y := by
  rw [ancestors, mem_lineage, hi.size_records]
  simp only [Function.iterate_succ_apply]
  constructor
  · rintro ⟨n, -, hn⟩
    exact ⟨n, hn⟩
  · rintro ⟨n, hn⟩
    refine ⟨n, ?_, hn⟩
    by_contra hle
    have ended := hf.iterate_size hp (x := f.parent x) fun z hz => hp hz
    rw [iterate_parent_of_le ended (Nat.le_of_not_lt hle)] at hn
    exact absurd hn (by simp)

/-- The ancestors of a node are its parent and the ancestors of that. -/
theorem ancestors_eq (hf : f.Grounded) (hp : f.ParentsExist) (hi : f.Intact) {x : Link}
    {p : NodeIndex} (hx : f.parent x = some p) :
    f.ancestors x = p :: f.ancestors (some p) := by
  have ended := hf.iterate_size hp (x := some p) fun z hz => by
    cases hz
    exact hp hx
  have bound : f.records.size = f.size := hi.size_records
  have wider := lineage_of_le ended (Nat.le_succ f.size)
  rw [ancestors, ancestors, hx, bound, ← wider]
  rfl

/-- A node lies one level deeper than its parent. -/
theorem depth_of_parent (hf : f.Grounded) (hp : f.ParentsExist) (hi : f.Intact) {x : Link}
    {p : NodeIndex} (hx : f.parent x = some p) : f.depth x = f.depth (some p) + 1 := by
  rw [depth, ancestors_eq hf hp hi hx, List.length_cons, depth]

/-- A node has fewer ancestors than there are nodes. -/
theorem depth_lt (hf : f.Grounded) (hp : f.ParentsExist) {x : NodeIndex}
    (hx : f.contains (some x)) : f.depth (some x) < f.size := by
  have nodes : x :: f.ancestors (some x) ⊆ List.range f.size := by
    intro y hy
    rw [List.mem_range, ← contains_some]
    rcases List.mem_cons.mp hy with rfl | hy
    · exact hx
    · obtain ⟨n, -, hn⟩ := mem_lineage.mp hy
      rw [← Function.iterate_succ_apply, Function.iterate_succ_apply'] at hn
      exact hp hn
  have apart : x ∉ f.ancestors (some x) := by
    intro hmem
    obtain ⟨n, -, hn⟩ := mem_lineage.mp hmem
    exact hf.iterate_ne x n hn
  have distinct := List.nodup_cons.mpr ⟨apart, hf.nodup_lineage f.records.size (f.parent x)⟩
  have short := distinct.length_le_of_subset nodes
  rwa [List.length_cons, List.length_range] at short

/-! ## Moving nodes -/

/-- **Moving nodes to a parent above which none of them stands closes no circle.**  The other
nodes keep their parents or lose them. -/
theorem Grounded.of_moved (hf : f.Grounded) {g : Forest} {p : Link} (moved : NodeIndex → Prop)
    (adopted : ∀ x, moved x → g.parent (some x) = p)
    (kept : ∀ x, ¬ moved x → g.parent (some x) = f.parent (some x) ∨ g.parent (some x) = none)
    (clear : ∀ x, moved x → ∀ n, f.parent^[n] p ≠ some x) : g.Grounded := by
  -- a chain that meets none of the moved nodes ends where it ended, or earlier
  have avoiding (n : Nat) (x : Link) (hx : f.parent^[n] x = none)
      (hclear : ∀ y, moved y → ∀ m, f.parent^[m] x ≠ some y) : g.Ends x := by
    induction n generalizing x with
    | zero => exact ⟨0, hx⟩
    | succ n ih =>
      cases x with
      | none => exact Ends.none
      | some x =>
        apply Ends.of_parent
        rcases kept x fun hm => hclear x hm 0 rfl with same | gone
        · rw [same]
          exact ih _ hx fun y hy m => hclear y hy (m + 1)
        · exact gone ▸ Ends.none
  have top : g.Ends p := by
    obtain ⟨n, hn⟩ := hf p
    exact avoiding n p hn clear
  intro x
  obtain ⟨n, hn⟩ := hf x
  induction n generalizing x with
  | zero => exact ⟨0, hn⟩
  | succ n ih =>
    cases x with
    | none => exact Ends.none
    | some x =>
      apply Ends.of_parent
      by_cases hm : moved x
      · exact adopted x hm ▸ top
      · rcases kept x hm with same | gone
        · exact same ▸ ih _ hn
        · exact gone ▸ Ends.none

/-- Forests with the same parents are grounded alike. -/
theorem Grounded.congr (hf : f.Grounded) {g : Forest} (h : ∀ x, g.parent x = f.parent x) :
    g.Grounded := by
  have same : g.parent = f.parent := funext h
  intro x
  rw [Ends, same]
  exact hf x

end Forest

end SyntaxForest
