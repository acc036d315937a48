import Mathlib.Data.List.Basic
import SyntaxForest.Forest.Build
import SyntaxForest.Forest.Update

/-!
# Forests whose parts fit together

A header names the contents of its node by a place in a pool, and the record of a node is found at
the place of its header.  Nothing in the type of a forest keeps these places in step.  `Intact`
says that they are: each node has its record and, unless its kind is bare, contents of its own.

What is load-bearing is `entry_inj`: no two nodes share a place in a pool.  Without it, writing the
contents of one node would write those of another, and no update would have a frame.  With it, the
three updates of a forest can be read off its three views:

* `contents?_setContents` — other contents show at their node and nowhere else;
* `header?_push`, `record?_push`, `contents?_push` — a new node shows at its place only.
-/

namespace SyntaxForest

namespace Forest

/-- The parts of every node are where its header says, and no part belongs to two nodes. -/
structure Intact (f : Forest) : Prop where
  size_records : f.records.size = f.headers.size
  entry_eq_none_iff : ∀ {x h}, f.header? x = some h → (h.entry = none ↔ h.kind.isBare)
  entry_lt : ∀ {x h i}, f.header? x = some h → h.entry = some i → i < f.pools.size h.kind
  entry_inj : ∀ {x y h h' i}, f.header? x = some h → f.header? y = some h' →
    h.kind = h'.kind → h.entry = some i → h'.entry = some i → x = y
  /-- Nothing in a pool is left over from a node that is gone. -/
  owned : ∀ {k i}, i < f.pools.size k → ∃ x h, f.header? x = some h ∧ h.kind = k ∧
    h.entry = some i

variable {f : Forest}

/-! ## Reading the views -/

/-- A node is there if its index is below the number of nodes. -/
theorem contains_some {x : NodeIndex} : f.contains (some x) ↔ x < f.size := by
  simp [contains, header?, size]

@[simp] theorem contains_none : f.contains none = false := rfl

theorem contains_of_header? {x : Link} {h : Header} (hx : f.header? x = some h) :
    f.contains x := by
  simp [contains, hx]

theorem exists_header?_of_contains {x : Link} (hx : f.contains x) :
    ∃ h, f.header? x = some h := Option.isSome_iff_exists.mp hx

theorem kind?_of_header? {x : Link} {h : Header} (hx : f.header? x = some h) :
    f.kind? x = some h.kind := by
  simp [kind?, hx]

theorem contains_of_kind? {x : Link} {k : Kind} (hx : f.kind? x = some k) : f.contains x := by
  obtain ⟨h, hh, -⟩ := Option.map_eq_some_iff.mp hx
  exact contains_of_header? hh

/-- What it means that a node has contents. -/
theorem contents?_eq_some_iff {x : Link} {c : Contents} :
    f.contents? x = some c ↔ ∃ h i, f.header? x = some h ∧ h.entry = some i ∧
      f.pools.get? h.kind i = some c := by
  simp only [contents?, held?, Option.bind_eq_some_iff]
  constructor
  · rintro ⟨h, hx, i, hi, hc⟩
    exact ⟨h, i, hx, hi, hc⟩
  · rintro ⟨h, i, hx, hi, hc⟩
    exact ⟨h, hx, i, hi, hc⟩

/-- The entry of a node is looked up in the pool of its kind. -/
theorem contents?_of_entry {x : Link} {h : Header} {i : Nat} (hx : f.header? x = some h)
    (hi : h.entry = some i) : f.contents? x = f.pools.get? h.kind i := by
  rw [contents?, hx, Option.bind_some, held?, hi, Option.bind_some]

/-- Contents are of the kind that the header of their node names. -/
theorem kind?_of_contents? {x : Link} {c : Contents} (hx : f.contents? x = some c) :
    f.kind? x = some c.kind := by
  obtain ⟨h, i, hh, -, hc⟩ := contents?_eq_some_iff.mp hx
  rw [kind?_of_header? hh, Pools.kind_of_get? hc]

theorem contains_of_contents? {x : Link} {c : Contents} (hx : f.contents? x = some c) :
    f.contains x := by
  obtain ⟨h, i, hh, -, -⟩ := contents?_eq_some_iff.mp hx
  exact contains_of_header? hh

/-- The place of the next node is empty. -/
theorem contains_size : f.contains (some f.size) = false := by
  rw [Bool.eq_false_iff, Ne, contains_some]
  exact Nat.lt_irrefl _

/-- A node that is there is not the next one. -/
theorem ne_size_of_contains {x : Link} (hx : f.contains x) : x ≠ some f.size := by
  rintro rfl
  rw [contains_size] at hx
  cases hx

theorem header?_of_not_contains {x : Link} (hx : f.contains x = false) : f.header? x = none :=
  Option.not_isSome_iff_eq_none.mp (Bool.eq_false_iff.mp hx)

theorem contents?_of_not_contains {x : Link} (hx : f.contains x = false) :
    f.contents? x = none := by
  rw [contents?, header?_of_not_contains hx]
  rfl

namespace Intact

/-- A node has a record. -/
theorem isSome_record? (hf : f.Intact) {x : Link} : (f.record? x).isSome = f.contains x := by
  cases x with
  | none => rfl
  | some x =>
    rw [Bool.eq_iff_iff, contains_some, size, ← hf.size_records]
    simp [record?]

/-- There is a record for each header and no other. -/
theorem record?_of_not_contains (hf : f.Intact) {x : Link} (hx : f.contains x = false) :
    f.record? x = none := by
  rw [← Option.not_isSome_iff_eq_none, hf.isSome_record?, hx]
  exact Bool.false_ne_true

theorem parent_of_not_contains (hf : f.Intact) {x : Link} (hx : f.contains x = false) :
    f.parent x = none := by
  rw [Forest.parent, hf.record?_of_not_contains hx]
  rfl

/-- A node has contents, unless its kind is bare. -/
theorem isSome_contents? (hf : f.Intact) {x : Link} {h : Header} (hx : f.header? x = some h) :
    (f.contents? x).isSome = !h.kind.isBare := by
  cases hentry : h.entry with
  | none =>
    have bare : h.kind.isBare = true := (hf.entry_eq_none_iff hx).mp hentry
    simp [contents?, held?, hx, hentry, bare]
  | some i =>
    have held : (f.pools.get? h.kind i).isSome := Pools.isSome_get?_iff.mpr (hf.entry_lt hx hentry)
    have filled : h.kind.isBare = false := by
      have := (hf.entry_eq_none_iff hx).not
      simpa [hentry] using this
    simp [contents?, held?, hx, hentry, held, filled]

/-- A node of a kind that is not bare has contents of that kind. -/
theorem exists_contents? (hf : f.Intact) {x : Link} {k : Kind} (hx : f.kind? x = some k)
    (filled : k.isBare = false) : ∃ c, f.contents? x = some c ∧ c.kind = k := by
  obtain ⟨h, hh, rfl⟩ := Option.map_eq_some_iff.mp hx
  have held := hf.isSome_contents? hh
  rw [filled] at held
  obtain ⟨c, hc⟩ := Option.isSome_iff_exists.mp held
  have same := (kind?_of_contents? hc).symm.trans hx
  exact ⟨c, hc, Option.some.inj same⟩

/-- The kind of a node tells whether it has contents. -/
theorem isSome_contents?_eq (hf : f.Intact) (x : Link) :
    (f.contents? x).isSome = (f.kind? x).any (!·.isBare) := by
  cases hx : f.header? x with
  | none => rw [contents?, kind?, hx]; rfl
  | some h => rw [hf.isSome_contents? hx, kind?, hx]; rfl

end Intact

/-! ## Other contents -/

/-- **Other contents show at their node and nowhere else.** -/
theorem contents?_setContents (hf : f.Intact) {x : Link} {old c : Contents}
    (hx : f.contents? x = some old) (hkind : c.kind = old.kind) (y : Link) :
    (f.setContents x c).contents? y = if y = x then some c else f.contents? y := by
  obtain ⟨h, i, hh, hi, hget⟩ := contents?_eq_some_iff.mp hx
  have hk : c.kind = h.kind := by rw [hkind, Pools.kind_of_get? hget]
  have hlt : i < f.pools.size h.kind := hf.entry_lt hh hi
  have written : f.setContents x c = { f with pools := f.pools.set i c } := by
    simp [setContents, hh, hi]
  cases hy : f.header? y with
  | none =>
    have hne : y ≠ x := by
      rintro rfl
      simp [hh] at hy
    rw [if_neg hne]
    simp [contents?, hy]
  | some h' =>
    have held (g : Forest) (hg : g.header? y = some h') :
        g.contents? y = h'.entry.bind (g.pools.get? h'.kind) := by
      simp [contents?, held?, hg]
    rw [held _ ((header?_setContents ..).trans hy), held f hy, written]
    by_cases hxy : y = x
    · subst hxy
      cases hh.symm.trans hy
      simp [hi, Pools.get?_set, hk, hlt]
    · rw [if_neg hxy]
      cases hi' : h'.entry with
      | none => rfl
      | some j =>
        rw [Option.bind_some, Option.bind_some, Pools.get?_set, if_neg]
        rintro ⟨hkind', rfl, -⟩
        exact hxy (hf.entry_inj hy hh (hkind'.trans hk) hi' hi)

@[simp] theorem size_pools_setContents (x : Link) (c : Contents) (k : Kind) :
    (f.setContents x c).pools.size k = f.pools.size k := by
  unfold setContents
  split <;> simp

/-- The parts of a forest still fit together when neither headers nor the sizes of pools and of
the list of records have changed. -/
theorem Intact.congr (hf : f.Intact) {g : Forest} (hheaders : g.headers = f.headers)
    (hrecords : g.records.size = f.records.size)
    (hpools : ∀ k, g.pools.size k = f.pools.size k) : g.Intact := by
  have same (x : Link) : g.header? x = f.header? x := by simp only [header?, hheaders]
  constructor
  · rw [hrecords, hheaders, hf.size_records]
  · intro x h hx
    exact hf.entry_eq_none_iff ((same x).symm.trans hx)
  · intro x h i hx hi
    rw [hpools]
    exact hf.entry_lt ((same x).symm.trans hx) hi
  · intro x y h h' i hx hy
    exact hf.entry_inj ((same x).symm.trans hx) ((same y).symm.trans hy)
  · intro k i hi
    rw [hpools] at hi
    obtain ⟨x, h, hx, rest⟩ := hf.owned hi
    exact ⟨x, h, (same x).trans hx, rest⟩

/-- New contents of the same kind take the place of the old ones, so every entry keeps its owner. -/
theorem Intact.setContents (hf : f.Intact) (x : Link) (c : Contents) :
    (f.setContents x c).Intact :=
  hf.congr (headers_setContents ..) (by simp) (by simp)

/-! ## Other records -/

@[simp] theorem size_records_modifyRecord (x : Link) (g : NodeRecord → NodeRecord) :
    (f.modifyRecord x g).records.size = f.records.size := by
  cases x <;> simp [modifyRecord]

/-- A change of a record leaves headers and pools, and with them the owners. -/
theorem Intact.modifyRecord (hf : f.Intact) (x : Link) (g : NodeRecord → NodeRecord) :
    (f.modifyRecord x g).Intact :=
  hf.congr (headers_modifyRecord ..) (by simp) (by simp)

/-! ## Other ranges -/

/-- Another range shows at its node and nowhere else. -/
theorem header?_setRange (x : Link) (pos len : Int32) (y : Link) :
    (f.setRange x pos len).header? y =
      if x = y then (f.header? y).map fun h => { h with pos, len } else f.header? y := by
  cases x <;> cases y <;> simp [setRange, header?, Array.getElem?_modify]

@[simp] theorem record?_setRange (x : Link) (pos len : Int32) (y : Link) :
    (f.setRange x pos len).record? y = f.record? y := by
  cases x <;> rfl

@[simp] theorem pools_setRange (x : Link) (pos len : Int32) :
    (f.setRange x pos len).pools = f.pools := by
  cases x <;> rfl

/-- A header under another range names the same kind and the same contents. -/
theorem exists_header?_of_setRange {x : Link} {pos len : Int32} {y : Link} {h : Header}
    (hy : (f.setRange x pos len).header? y = some h) :
    ∃ h', f.header? y = some h' ∧ h'.kind = h.kind ∧ h'.entry = h.entry := by
  rw [header?_setRange] at hy
  split at hy
  · obtain ⟨h', hh', rfl⟩ := Option.map_eq_some_iff.mp hy
    exact ⟨h', hh', rfl, rfl⟩
  · exact ⟨h, hy, rfl, rfl⟩

@[simp] theorem kind?_setRange (x : Link) (pos len : Int32) (y : Link) :
    (f.setRange x pos len).kind? y = f.kind? y := by
  simp only [kind?, header?_setRange]
  split
  · cases f.header? y <;> rfl
  · rfl

@[simp] theorem contents?_setRange (x : Link) (pos len : Int32) (y : Link) :
    (f.setRange x pos len).contents? y = f.contents? y := by
  simp only [contents?, header?_setRange]
  split
  · cases f.header? y <;> simp [held?]
  · cases f.header? y <;> simp [held?]

/-- A range says nothing about entries. -/
theorem Intact.setRange (hf : f.Intact) (x : Link) (pos len : Int32) :
    (f.setRange x pos len).Intact := by
  constructor
  · cases x with
    | none => exact hf.size_records
    | some x => simpa [Forest.setRange] using hf.size_records
  · intro y h hy
    obtain ⟨h', hh', hkind, hentry⟩ := exists_header?_of_setRange hy
    rw [← hkind, ← hentry]
    exact hf.entry_eq_none_iff hh'
  · intro y h i hy hi
    obtain ⟨h', hh', hkind, hentry⟩ := exists_header?_of_setRange hy
    rw [pools_setRange, ← hkind]
    exact hf.entry_lt hh' (hentry.trans hi)
  · intro y z h h₂ i hy hz hkinds hi hi₂
    obtain ⟨h', hh', hkind, hentry⟩ := exists_header?_of_setRange hy
    obtain ⟨h₂', hh₂', hkind₂, hentry₂⟩ := exists_header?_of_setRange hz
    exact hf.entry_inj hh' hh₂' (hkind.trans (hkinds.trans hkind₂.symm)) (hentry.trans hi)
      (hentry₂.trans hi₂)
  · intro k i hi
    rw [pools_setRange] at hi
    obtain ⟨y, h, hy, hkind, hentry⟩ := hf.owned hi
    by_cases hxy : x = y
    · exact ⟨y, { h with pos, len }, by simp [header?_setRange, hxy, hy], hkind, hentry⟩
    · exact ⟨y, h, by simp [header?_setRange, hxy, hy], hkind, hentry⟩

/-! ## A new node -/

section Push

variable (kind : Kind) (pos len : Int32) (contents : Option Contents) (record : NodeRecord)

theorem size_push : (f.push kind pos len contents record).size = f.size + 1 := by
  simp [push, size]

/-- A new node has its header at its place, and the other headers are as before. -/
theorem header?_push (y : Link) :
    (f.push kind pos len contents record).header? y =
      if y = some f.size then some ⟨kind, pos, len, contents.map f.nextEntry⟩
      else f.header? y := by
  cases y with
  | none => rfl
  | some y => simp [push, header?, size, Array.getElem?_push]

/-- A new node has its record at its place, and the other records are as before. -/
theorem record?_push (hf : f.Intact) (y : Link) :
    (f.push kind pos len contents record).record? y =
      if y = some f.size then some record else f.record? y := by
  cases y with
  | none => rfl
  | some y => simp [push, record?, size, Array.getElem?_push, hf.size_records]

theorem pools_push : (f.push kind pos len contents record).pools =
    contents.elim f.pools f.pools.push := rfl

/-- What is in a pool stays there when a node is added. -/
theorem get?_pools_push {k : Kind} {i : Nat} (hi : i < f.pools.size k) :
    (f.push kind pos len contents record).pools.get? k i = f.pools.get? k i := by
  cases contents with
  | none => rfl
  | some c =>
    rw [pools_push, Option.elim_some, Pools.get?_push, if_neg]
    rintro ⟨-, rfl⟩
    exact Nat.lt_irrefl _ hi

variable {kind contents}

/-- **A new node has its contents, and the other nodes theirs as before.** -/
theorem contents?_push (hf : f.Intact) (hkind : ∀ c ∈ contents, c.kind = kind) (y : Link) :
    (f.push kind pos len contents record).contents? y =
      if y = some f.size then contents else f.contents? y := by
  rw [contents?, header?_push]
  split
  · cases contents with
    | none => rfl
    | some c =>
      have := hkind c rfl
      simp [held?, nextEntry, pools_push, Pools.get?_push, this]
  · cases hy : f.header? y with
    | none => simp [contents?, hy]
    | some h =>
      cases hi : h.entry with
      | none => simp [contents?, hy, held?, hi]
      | some i =>
        simp [contents?, hy, held?, hi, get?_pools_push _ _ _ _ _ (hf.entry_lt hy hi)]

/-- The parts fit together when the new node has contents exactly if its kind is not bare. -/
theorem Intact.push (hf : f.Intact) (hkind : ∀ c ∈ contents, c.kind = kind)
    (hbare : contents = none ↔ kind.isBare) : (f.push kind pos len contents record).Intact := by
  have pool_size (k : Kind) :
      f.pools.size k ≤ (f.push kind pos len contents record).pools.size k := by
    cases contents with
    | none => exact Nat.le_refl _
    | some c => simp [pools_push, Pools.size_push]
  have new_entry {i : Nat} (hi : contents.map f.nextEntry = some i) : i = f.pools.size kind := by
    obtain ⟨c, hc, rfl⟩ := Option.map_eq_some_iff.mp hi
    rw [nextEntry, hkind c hc]
  -- a place that an old header names is below the old size, and the new place is not
  have apart {y : Link} {h : Header} {i : Nat} (hy : f.header? y = some h)
      (hk : h.kind = kind) (hi : h.entry = some i) : contents.map f.nextEntry ≠ some i := by
    intro hnew
    have := hf.entry_lt hy hi
    rw [new_entry hnew, hk] at this
    exact Nat.lt_irrefl _ this
  constructor
  · simp [Forest.push, hf.size_records]
  · intro y h hy
    rw [header?_push] at hy
    split at hy
    · cases hy
      simpa using hbare
    · exact hf.entry_eq_none_iff hy
  · intro y h i hy hi
    rw [header?_push] at hy
    split at hy
    · cases hy
      obtain ⟨c, rfl, hc⟩ := Option.map_eq_some_iff.mp hi
      rw [new_entry hi, pools_push, Option.elim_some, Pools.size_push, if_pos (hkind c rfl).symm]
      exact Nat.lt_succ_self _
    · exact Nat.lt_of_lt_of_le (hf.entry_lt hy hi) (pool_size _)
  · intro y z h h' i hy hz hkinds hi hi'
    rw [header?_push] at hy hz
    split at hy <;> split at hz
    · simp_all
    · cases hy
      exact absurd hi (apart hz hkinds.symm hi')
    · cases hz
      exact absurd hi' (apart hy hkinds hi)
    · exact hf.entry_inj hy hz hkinds hi hi'
  · intro k i hi
    by_cases hlt : i < f.pools.size k
    · obtain ⟨y, h, hy, hrest⟩ := hf.owned hlt
      have hne := ne_size_of_contains (contains_of_header? hy)
      exact ⟨y, h, by rw [header?_push, if_neg hne, hy], hrest⟩
    · cases contents with
      | none => exact absurd hi hlt
      | some c =>
        rw [pools_push, Option.elim_some, Pools.size_push] at hi
        by_cases hk : k = c.kind
        · rw [if_pos hk] at hi
          have hlast : i = f.pools.size k := by omega
          refine ⟨some f.size, _, by rw [header?_push, if_pos rfl], ?_, ?_⟩
          · rw [hk, hkind c rfl]
          · simp [nextEntry, hlast, hk]
        · rw [if_neg hk] at hi
          exact absurd hi hlt

end Push

/-- Nothing is out of place in a forest without nodes. -/
theorem intact_empty : Forest.empty.Intact := by
  have none (x : Link) : Forest.empty.header? x = none := by
    cases x <;> simp [Forest.empty, header?]
  constructor
  · rfl
  · intro x h hx
    simp [none] at hx
  · intro x h i hx
    simp [none] at hx
  · intro x y h h' i hx
    simp [none] at hx
  · intro k i hi
    cases k <;> simp [Forest.empty, Pools.size] at hi

/-- A construction leaves the parts of a forest in place. -/
theorem Intact.construct (hf : f.Intact) (id : Nat) (c : Construction) :
    (f.construct id c).Intact := by
  refine hf.push _ _ _ (fun contents h => Construction.kind_of_contents? h) ?_
  cases c <;> simp [Construction.contents?, Construction.kind, Kind.isBare,
    Contents.fresh?_eq_none_iff]

end Forest

end SyntaxForest
