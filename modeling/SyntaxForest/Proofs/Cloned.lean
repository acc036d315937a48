import SyntaxForest.Proofs.Copying

/-!
# What cloning does

A clone succeeds exactly when it is asked for a node, under nothing or under a node, and the tree
is not too high (`Clonable`).  `Cloned` describes the result node by node: the copy of each node has
its header, its contents with every child replaced by its copy, and its record under another parent;
and what was there before is as it was.

From this description everything else follows without another look at the program: the copies stand
in pre-order (`Cloned.preorder_copy`), and a clone leads from linked forests to linked forests
(`Linked.of_cloned`), also when the new parent lies inside the tree that is copied.
-/

namespace SyntaxForest

namespace Forest

/-- When a tree can be cloned under a parent. -/
structure Clonable (f : Forest) (x parent : Link) : Prop where
  node : f.contains x
  parent : parent = none ∨ f.contains parent
  height : f.height x ≤ maxHeight

/-- What has become of a forest by cloning the tree of a node under a parent. -/
structure Cloned (f g : Forest) (source : NodeIndex) (parent : Link) : Prop where
  intact : g.Intact
  size : g.size = f.size + (f.preorder (some source)).length
  header?_old : ∀ {y}, f.contains y → g.header? y = f.header? y
  contents?_old : ∀ {y}, f.contains y → g.contents? y = f.contents? y
  record?_old : ∀ {y}, f.contains y → g.record? y = f.record? y
  header? : ∀ {x}, x ∈ f.preorder (some source) → ∃ h entry, f.header? (some x) = some h ∧
    g.header? (some (f.copyOf source x)) = some { h with entry }
  contents? : ∀ {x}, x ∈ f.preorder (some source) → g.contents? (some (f.copyOf source x)) =
    (f.contents? (some x)).map (·.mapLinks (·.map (f.copyOf source)))
  record? : ∀ {x}, x ∈ f.preorder (some source) → g.record? (some (f.copyOf source x)) =
    (f.record? (some x)).map (·.withParent (f.adopter source parent x))

variable {f g : Forest} {source : NodeIndex} {parent : Link}

/-! ## The program -/

/-- What is demanded of a forest before a tree is cloned. -/
def cloneDemands (f : Forest) (x parent : Link) : Except TreeError Unit := do
  let _ ← f.header x
  if parent.isSome then
    let _ ← f.header parent
  f.checkHeight x

theorem cloneDemands_eq_ok_iff {x parent : Link} :
    f.cloneDemands x parent = .ok () ↔ f.Clonable x parent := by
  have known (y : Link) : (∃ h, f.header y = .ok h) ↔ f.contains y := by
    simp only [header_eq_ok_iff]
    rw [contains, Option.isSome_iff_exists]
  have low : f.checkHeight x = .ok () ↔ f.height x ≤ maxHeight := by
    unfold checkHeight
    split <;> simp <;> omega
  rw [cloneDemands, bind_eq_ok_iff]
  cases parent with
  | none =>
    simp only [Option.isSome_none, Bool.false_eq_true, if_false, exists_and_right, known, low]
    constructor
    · rintro ⟨node, height⟩
      exact ⟨node, .inl rfl, height⟩
    · rintro h
      exact ⟨h.node, h.height⟩
  | some p =>
    simp only [Option.isSome_some, if_true, bind_eq_ok_iff, exists_and_right, known, low]
    constructor
    · rintro ⟨node, parent, height⟩
      exact ⟨node, .inr parent, height⟩
    · rintro ⟨node, parent, height⟩
      exact ⟨node, parent.resolve_left (Option.some_ne_none p), height⟩

/-- What cloning does once its demands are met. -/
def performClone (x parent : Link) : Editing NodeIndex := do
  match x with
  | none => throw (.unknownNode x)
  | some source =>
    let before := (← get).size
    let copies ← Editing.copyTree before parent ∅ source
    modify (·.relinkFrom before copies)
    match copies[source]? with
    | some copy => return copy
    | none => throw (.unknownNode x)

/-- Cloning asks all its questions first. -/
theorem clone_eq (x parent : Link) : Editing.clone x parent = (do
    Editing.ask (·.cloneDemands x parent)
    performClone x parent) := by
  unfold Editing.clone cloneDemands
  simp only [Editing.ask_bind, bind_assoc]
  cases parent with
  | none =>
    simp only [Option.isSome_none, Bool.false_eq_true, if_false]
    rfl
  | some p =>
    simp only [Option.isSome_some, if_true, Editing.ask_bind, bind_assoc]
    rfl

/-- A tree that cannot be cloned is left as it is. -/
theorem run_clone_of_not_clonable {x parent : Link} (h : ¬ f.Clonable x parent) :
    ∃ err, (Editing.clone x parent).run f = .error err f := by
  rw [← cloneDemands_eq_ok_iff] at h
  rw [clone_eq]
  simp only [EStateM.run_bind, Editing.run_ask]
  cases hd : f.cloneDemands x parent with
  | ok => exact absurd hd h
  | error err => exact ⟨err, rfl⟩

variable (hf : f.Linked)
include hf

/-- What lies below a node of the tree is in the tree. -/
theorem Linked.mem_preorder_of_below {x y : NodeIndex} (hsource : f.contains (some source))
    (hx : x ∈ f.preorder (some source)) (hy : y ∈ f.below x) : y ∈ f.preorder (some source) := by
  rw [hf.mem_preorder_iff hsource] at hx ⊢
  exact hx.tail hy

/-- The source comes first. -/
theorem Linked.copyOf_source (hsource : f.contains (some source)) :
    f.copyOf source source = f.size := by
  rw [copyOf, hf.preorder_eq hsource, List.idxOf_cons_self, Nat.add_zero]

/-- In the tree, to look a child up among the copies is to name its copy. -/
theorem Linked.mapLinks_copies (hsource : f.contains (some source)) {copies : Copies}
    (hcopies : ∀ x, copies[x]? =
      if x ∈ f.preorder (some source) then some (f.copyOf source x) else none)
    {x : NodeIndex} (hx : x ∈ f.preorder (some source)) {c : Contents}
    (hc : f.contents? (some x) = some c) :
    c.mapLinks (·.bind (copies[·]?)) = c.mapLinks (·.map (f.copyOf source)) := by
  have renamed {a : Link} (ha : a ∈ c.links) :
      a.bind (copies[·]?) = a.map (f.copyOf source) := by
    cases a with
    | none => rfl
    | some y =>
      have hy : y ∈ f.below x := mem_children_iff.mpr ⟨c, hc, ha⟩
      rw [Option.bind_some, hcopies, if_pos (hf.mem_preorder_of_below hsource hx hy)]
      rfl
  refine Contents.rewire_congr (fun a ha => renamed ha) fun entries hentries => ?_
  exact List.map_congr_left fun a ha => renamed (hentries ha)

/-- **Renaming the children of the copies completes the clone.** -/
theorem Linked.cloned_of_copied (hsource : f.contains (some source)) {copies : Copies}
    (t : Copied f g source parent (f.preorder (some source)) copies) :
    f.Cloned (g.relinkFrom f.size copies) source parent := by
  obtain ⟨intact, headers, records, contents⟩ :=
    relink_all t.intact copies (List.nodup_range' (s := f.size) (n := g.size - f.size))
  have header (y : Link) : (g.relinkFrom f.size copies).header? y = g.header? y := by
    simp only [Forest.header?, relinkFrom, headers]
  have record (y : Link) : (g.relinkFrom f.size copies).record? y = g.record? y := by
    simp only [Forest.record?, relinkFrom, records]
  constructor
  · exact intact
  · rw [← t.size, size, relinkFrom, headers]
    rfl
  · intro y hy
    rw [header, t.header?_old hy]
  · intro y hy
    have old : y ∉ (List.range' f.size (g.size - f.size)).map some := by
      rintro hmem
      obtain ⟨z, hz, rfl⟩ := List.mem_map.mp hmem
      have behind := (List.mem_range'_1.mp hz).1
      exact Nat.not_lt.mpr behind (contains_some.mp hy)
    rw [relinkFrom, contents]
    simp only [old, if_false, Option.map_id']
    exact t.contents?_old hy
  · intro y hy
    rw [record, t.record?_old hy]
  · intro x hx
    rw [header]
    exact t.header? hx
  · intro x hx
    have new : some (f.copyOf source x) ∈ (List.range' f.size (g.size - f.size)).map some := by
      obtain ⟨header, entry, -, hcopy⟩ := t.header? hx
      have before := contains_some.mp (contains_of_header? hcopy)
      have behind : f.size ≤ f.copyOf source x := Nat.le_add_right ..
      refine List.mem_map_of_mem (List.mem_range'_1.mpr ⟨behind, ?_⟩)
      rwa [Nat.add_sub_cancel' (t.size ▸ Nat.le_add_right ..)]
    rw [relinkFrom, contents, t.contents? hx]
    simp only [new, if_true]
    cases hc : f.contents? (some x) with
    | none => rfl
    | some c => rw [Option.map_some, Option.map_some, hf.mapLinks_copies hsource t.copies hx hc]
  · intro x hx
    rw [record, t.record? hx]

/-- **A tree that can be cloned is cloned, and the answer is the first new node.** -/
theorem Linked.run_clone (h : f.Clonable (some source) parent) :
    ∃ g, (Editing.clone (some source) parent).run f = .ok f.size g ∧ f.Cloned g source parent := by
  have demands := cloneDemands_eq_ok_iff.mpr h
  have order := preorder_some h.node
  have whole : f.preorder (some source) =
      [] ++ Traversal.unfolding f.below f.size source ++ [] := by
    rw [order, List.nil_append, List.append_nil]
  obtain ⟨g, copies, run, t⟩ :=
    hf.run_copyTree h.node (Copied.refl hf.intact source parent) whole
  rw [adopter_source] at run
  rw [List.nil_append, ← order] at t
  have listed := hf.mem_preorder_self h.node
  refine ⟨g.relinkFrom f.size copies, ?_, hf.cloned_of_copied h.node t⟩
  rw [clone_eq]
  simp only [performClone, EStateM.run_bind, Editing.run_ask, demands, EStateM.run_get, run,
    EStateM.run_modify, t.copies, listed, if_true, EStateM.run_pure, hf.copyOf_source h.node]

/-- A clone that succeeds was of a tree that can be cloned, and answers with the first new node. -/
theorem Linked.cloned_of_run_ok {x : Link} {copy : NodeIndex}
    (run : (Editing.clone x parent).run f = .ok copy g) :
    ∃ source, x = some source ∧ f.Clonable (some source) parent ∧ copy = f.size ∧
      f.Cloned g source parent := by
  have clonable : f.Clonable x parent := by
    by_contra not
    obtain ⟨err, run'⟩ := run_clone_of_not_clonable not
    cases run.symm.trans run'
  cases x with
  | none => cases clonable.node
  | some source =>
    obtain ⟨g', run', t⟩ := hf.run_clone clonable
    cases run.symm.trans run'
    exact ⟨source, rfl, clonable, rfl, t⟩

omit hf

/-! ## Renamed contents -/

section Renamed

variable {x y : Link} {name : NodeIndex → NodeIndex}
  (h : g.contents? y = (f.contents? x).map (·.mapLinks (·.map name)))
include h

/-- Where the contents are renamed, the children are. -/
theorem children_of_renamed : g.children y = (f.children x).map name := by
  rw [children, h, children]
  cases f.contents? x with
  | none => rfl
  | some c =>
    show (c.mapLinks _).links.filterMap id = (c.links.filterMap id).map _
    rw [Contents.links_mapLinks, List.filterMap_map, List.map_filterMap]
    rfl

theorem list_of_renamed (slot : ListSlot) : g.list y slot = (f.list x slot).map (·.map name) := by
  rw [list, h, list]
  cases f.contents? x with
  | none => rfl
  | some c =>
    rw [Option.map_some, Option.bind_some, Option.bind_some, Contents.mapLinks,
      Contents.list?_rewire]
    cases c.list? slot <;> rfl

theorem child_of_renamed (slot : ChildSlot) : g.child y slot = (f.child x slot).map name := by
  rw [child, h, child]
  cases f.contents? x with
  | none => rfl
  | some c =>
    rw [Option.map_some, Option.bind_some, Option.bind_some, Contents.mapLinks,
      Contents.child?_rewire]
    cases c.child? slot <;> rfl

end Renamed

include hf

/-! ## Places of copies -/

/-- **The copies stand behind all that was there, in the order of the tree.** -/
theorem Linked.map_copyOf (source : NodeIndex) :
    (f.preorder (some source)).map (f.copyOf source) =
      List.range' f.size (f.preorder (some source)).length := by
  apply List.ext_getElem
  · rw [List.length_map, List.length_range']
  · intro i hi hi'
    rw [List.getElem_map, List.getElem_range', copyOf,
      (hf.nodup_preorder (some source)).idxOf_getElem, Nat.one_mul]

namespace Cloned

variable (t : f.Cloned g source parent)
include t

omit hf in
theorem contains_copy {x : NodeIndex} (hx : x ∈ f.preorder (some source)) :
    g.contains (some (f.copyOf source x)) := by
  obtain ⟨h, entry, -, hcopy⟩ := t.header? hx
  exact contains_of_header? hcopy

omit hf in
theorem contains_old {y : Link} (hy : f.contains y) : g.contains y := by
  rw [contains, t.header?_old hy]
  exact hy

/-- A node of the new forest is an old node or a copy. -/
theorem exists_of_contains {y : NodeIndex} (hy : g.contains (some y)) :
    f.contains (some y) ∨ ∃ x ∈ f.preorder (some source), y = f.copyOf source x := by
  rw [contains_some, t.size] at hy
  rcases Nat.lt_or_ge y f.size with hlt | hge
  · exact Or.inl (contains_some.mpr hlt)
  · have new : y ∈ List.range' f.size (f.preorder (some source)).length :=
      List.mem_range'_1.mpr ⟨hge, hy⟩
    rw [← hf.map_copyOf] at new
    obtain ⟨x, hx, rfl⟩ := List.mem_map.mp new
    exact Or.inr ⟨x, hx, rfl⟩

omit hf in
theorem parent_old {y : Link} (hy : f.contains y) : g.parent y = f.parent y := by
  rw [Forest.parent, t.record?_old hy, Forest.parent]

omit hf in
theorem children_old {y : Link} (hy : f.contains y) : g.children y = f.children y := by
  rw [children, t.contents?_old hy, children]

theorem parent_copy {x : NodeIndex} (hx : x ∈ f.preorder (some source)) :
    g.parent (some (f.copyOf source x)) = f.adopter source parent x := by
  have known := hf.intact.isSome_record?.trans (hf.contains_of_mem_preorder hx)
  obtain ⟨r, hr⟩ := Option.isSome_iff_exists.mp known
  rw [Forest.parent, t.record? hx, hr]
  rfl

/-- The first of the copies has the parent that was asked for. -/
theorem parent_root (hsource : f.contains (some source)) : g.parent (some f.size) = parent := by
  rw [← hf.copyOf_source hsource, t.parent_copy hf (hf.mem_preorder_self hsource), adopter_source]

omit hf in
/-- The children of a copy are the copies of the children. -/
theorem children_copy {x : NodeIndex} (hx : x ∈ f.preorder (some source)) :
    g.children (some (f.copyOf source x)) = (f.below x).map (f.copyOf source) :=
  children_of_renamed (t.contents? hx)

/-- **The pre-order of the copy is the new nodes from first to last.** -/
theorem preorder_copy (hsource : f.contains (some source)) :
    g.preorder (some f.size) = List.range' f.size (f.preorder (some source)).length := by
  have listed := hf.mem_preorder_self hsource
  have root : g.contains (some f.size) := hf.copyOf_source hsource ▸ t.contains_copy listed
  -- the larger forest gives more room, which changes nothing
  have wider : Traversal.unfolding f.below g.size source = f.preorder (some source) := by
    rw [preorder_some hsource]
    exact Traversal.unfolding_of_le hf.rank_lt (f.rank_le source) (t.size ▸ Nat.le_add_right ..)
  have renamed : Traversal.unfolding g.below g.size (f.copyOf source source) =
      (Traversal.unfolding f.below g.size source).map (f.copyOf source) :=
    Traversal.unfolding_map (f.copyOf source) fun y hy => t.children_copy (wider ▸ hy)
  rw [preorder_some root, ← hf.copyOf_source hsource, renamed, wider, hf.map_copyOf,
    hf.copyOf_source hsource]

/-! ## The invariant -/

/-- Following parents from an old node leads where it led. -/
theorem ends_old {y : Link} (hy : ∀ z ∈ y, f.contains (some z)) : g.Ends y := by
  obtain ⟨n, hn⟩ := hf.grounded y
  induction n generalizing y with
  | zero => exact ⟨0, hn⟩
  | succ n ih =>
    cases y with
    | none => exact Ends.none
    | some y =>
      apply Ends.of_parent
      rw [t.parent_old (hy y rfl)]
      exact ih (fun z hz => hf.parents hz) hn

/-- Following parents from a copy ends: it leads up the copy, and then into the old forest. -/
theorem ends_copy (hsource : f.contains (some source))
    (hparent : parent = none ∨ f.contains parent) {x : NodeIndex}
    (hx : x ∈ f.preorder (some source)) : g.Ends (some (f.copyOf source x)) := by
  have top : g.Ends parent := by
    refine t.ends_old hf fun z hz => ?_
    rcases hparent with rfl | known
    · cases hz
    · exact hz ▸ known
  have path := (hf.mem_preorder_iff hsource).mp hx
  induction path with
  | refl =>
    apply Ends.of_parent
    rwa [t.parent_copy hf hx, adopter_source]
  | @tail y z path step ih =>
    have hy := (hf.mem_preorder_iff hsource).mpr path
    apply Ends.of_parent
    rw [t.parent_copy hf hx, hf.adopter_of_mem hsource hy step]
    exact ih hy

/-- Whoever is stored after cloning has its holder as parent. -/
theorem parent_of_mem (hsource : f.contains (some source)) {p y : NodeIndex}
    (hy : y ∈ g.children (some p)) : g.parent (some y) = some p := by
  obtain ⟨c, hc, -⟩ := mem_children_iff.mp hy
  rcases t.exists_of_contains hf (contains_of_contents? hc) with hp | ⟨x, hx, rfl⟩
  · rw [t.children_old hp] at hy
    rw [t.parent_old (hf.contains_of_mem hy), hf.parent_of_mem hy]
  · rw [t.children_copy hx] at hy
    obtain ⟨z, hz, rfl⟩ := List.mem_map.mp hy
    rw [t.parent_copy hf (hf.mem_preorder_of_below hsource hx hz),
      hf.adopter_of_mem hsource hx hz]

omit hf in
theorem kind?_copy {x : NodeIndex} (hx : x ∈ f.preorder (some source)) :
    g.kind? (some (f.copyOf source x)) = f.kind? (some x) := by
  obtain ⟨h, entry, hh, hcopy⟩ := t.header? hx
  rw [Forest.kind?, hcopy, Forest.kind?, hh]
  rfl

omit hf in
theorem kind?_old {y : Link} (hy : f.contains y) : g.kind? y = f.kind? y := by
  rw [Forest.kind?, t.header?_old hy, Forest.kind?]

omit hf in
/-- A list of a copy holds the copies of what the list of the source holds. -/
theorem list_copy {x : NodeIndex} (hx : x ∈ f.preorder (some source)) (slot : ListSlot) :
    g.list (some (f.copyOf source x)) slot =
      (f.list (some x) slot).map (·.map (f.copyOf source)) :=
  list_of_renamed (t.contents? hx) slot

omit hf in
/-- A slot of a copy holds the copy of what the slot of the source holds. -/
theorem child_copy {x : NodeIndex} (hx : x ∈ f.preorder (some source)) (slot : ChildSlot) :
    g.child (some (f.copyOf source x)) slot =
      (f.child (some x) slot).map (f.copyOf source) :=
  child_of_renamed (t.contents? hx) slot

/-- Following parents from any node ends. -/
theorem ends (h : f.Clonable (some source) parent) (y : Link) : g.Ends y := by
  cases y with
  | none => exact Ends.none
  | some y =>
    by_cases hy : g.contains (some y)
    · rcases t.exists_of_contains hf hy with old | ⟨x, hx, rfl⟩
      · exact t.ends_old hf fun z hz => Option.some.inj hz ▸ old
      · exact t.ends_copy hf h.node h.parent hx
    · apply Ends.of_parent
      rw [t.intact.parent_of_not_contains (Bool.eq_false_iff.mpr hy)]
      exact Ends.none

/-- A parent is a node: an old one, a copy, or the one that was asked for. -/
theorem contains_parent (h : f.Clonable (some source) parent) {y : Link} {p : NodeIndex}
    (hy : g.parent y = some p) : g.contains (some p) := by
  cases y with
  | none => cases hy
  | some y =>
    by_cases known : g.contains (some y)
    · rcases t.exists_of_contains hf known with old | ⟨x, hx, rfl⟩
      · rw [t.parent_old old] at hy
        exact t.contains_old (hf.parents hy)
      · have path := (hf.mem_preorder_iff h.node).mp hx
        rw [t.parent_copy hf hx] at hy
        rcases Relation.ReflTransGen.cases_tail path with rfl | ⟨z, hz, step⟩
        · rw [adopter_source] at hy
          rcases h.parent with none | known
          · rw [none] at hy
            cases hy
          · exact t.contains_old (hy ▸ known)
        · have hz := (hf.mem_preorder_iff h.node).mpr hz
          rw [hf.adopter_of_mem h.node hz step] at hy
          exact hy ▸ t.contains_copy hz
    · rw [t.intact.parent_of_not_contains (Bool.eq_false_iff.mpr known)] at hy
      cases hy

/-- No node stores a child twice after cloning. -/
theorem nodup_children (hsource : f.contains (some source)) (p : Link) :
    (g.children p).Nodup := by
  cases hc : g.contents? p with
  | none => simp [children, hc]
  | some c =>
    cases p with
    | none => cases hc
    | some p =>
      rcases t.exists_of_contains hf (contains_of_contents? hc) with old | ⟨x, hx, rfl⟩
      · rw [t.children_old old]
        exact hf.nodup_children (some p)
      · rw [t.children_copy hx]
        have nodup : (f.below x).Nodup := hf.nodup_children (some x)
        apply nodup.map_on
        intro y hy z _ hyz
        exact copyOf_inj (hf.mem_preorder_of_below hsource hx hy) hyz

/-- The entries of a list of a copy are of the kinds of the entries of its source. -/
theorem kind?_of_mem_list_copy (hsource : f.contains (some source)) {x : NodeIndex}
    (hx : x ∈ f.preorder (some source)) {k : Kind} (hk : f.kind? (some x) = some k)
    {slot : ListSlot} {a : Link} (ha : a ∈ g.list (some (f.copyOf source x)) slot) :
    ∃ kind, g.kind? a = some kind ∧ ∀ demand ∈ slot.entryKind? k, kind = demand := by
  rw [t.list_copy hx] at ha
  obtain ⟨b, hb, rfl⟩ := List.mem_map.mp ha
  obtain ⟨kind, hkind, demands⟩ := hf.entries hk hb
  cases b with
  | none => cases hkind
  | some b =>
    have below : b ∈ f.below x := mem_children_of_mem_list slot hb
    refine ⟨kind, ?_, demands⟩
    rw [Option.map_some, t.kind?_copy (hf.mem_preorder_of_below hsource hx below), hkind]

end Cloned

/-- **A clone leads from linked forests to linked forests.** -/
theorem Linked.of_cloned (t : f.Cloned g source parent) (h : f.Clonable (some source) parent) :
    g.Linked where
  intact := t.intact
  grounded := t.ends hf h
  parents := t.contains_parent hf h
  parent_of_mem := by
    intro p y hy
    cases p with
    | none => cases hy
    | some p => exact t.parent_of_mem hf h.node hy
  nodup_children := t.nodup_children hf h.node
  entries := by
    intro p k slot a hk ha
    cases p with
    | none => cases hk
    | some p =>
      rcases t.exists_of_contains hf (contains_of_kind? hk) with old | ⟨x, hx, rfl⟩
      · rw [t.kind?_old old] at hk
        rw [list, t.contents?_old old] at ha
        obtain ⟨kind, hkind, demands⟩ := hf.entries hk ha
        exact ⟨kind, (t.kind?_old (contains_of_kind? hkind)).trans hkind, demands⟩
      · rw [t.kind?_copy hx] at hk
        exact t.kind?_of_mem_list_copy hf h.node hx hk ha

end Forest

end SyntaxForest
