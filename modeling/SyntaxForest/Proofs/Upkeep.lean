import SyntaxForest.Proofs.Transfer

/-!
# Edits keep forests linked

Each edit that succeeds leads from linked forests to linked forests.  For an edit of a part this is
read off its `Edit.Transfer`: the children of the node of the edit are the segment that was written
between two segments that stay (`Transfer.exists_children`), and everybody else only loses what was
passed.

Edits of values, marks and ranges leave every slot, list and parent link (`SameTrees`), and for them
the invariant is carried over as it is.  A new node is a tree of its own.
-/

namespace SyntaxForest

variable {f g : Forest}

namespace Edit

variable {e : Edit} {part : Part}

/-- What an edit writes names no node twice. -/
theorem nodup_content (hf : f.Linked) (hpart : e.part? = some part) (legal : e.Legal f part) :
    ((e.content f).filterMap id).Nodup := by
  have inj : ∀ (a a' : Link) (x : NodeIndex), x ∈ id a → x ∈ id a' → a = a' := by
    intro a a' x ha ha'
    exact ha.trans ha'.symm
  cases e with
  | append slot node child =>
    have absent : child ∉ f.list node slot := legal.absent slot node child rfl
    rw [content, List.filterMap_append, List.nodup_append]
    refine ⟨(hf.nodup_list node slot).filterMap inj, (List.nodup_singleton child).filterMap inj, ?_⟩
    intro x hx y hy hxy
    subst hxy
    have listed : some x ∈ f.list node slot := by simpa using hx
    have added : child = some x := by simpa [eq_comm] using hy
    exact absent (added ▸ listed)
  | setChild _ _ _ | setList _ _ _ => exact legal.nodup.filterMap inj
  | write _ _ | mark _ _ | setRange _ _ _ => cases hpart

/-- What is written into a list is of the kind that the list demands. -/
theorem kind?_of_mem_content (hf : f.Linked) {slot : ListSlot}
    (hpart : e.part? = some (.list slot)) (legal : e.Legal f (.list slot)) {k : Kind}
    (hk : f.kind? e.node = some k) {a : Link} (ha : a ∈ e.content f) :
    ∃ kind, f.kind? a = some kind ∧ ∀ demand ∈ slot.entryKind? k, kind = demand := by
  by_cases hpassed : a ∈ e.children
  · rcases legal.nodes a hpassed with known | ⟨-, optional⟩
    · obtain ⟨h, hh⟩ := Forest.exists_header?_of_contains known
      have hkind := Forest.kind?_of_header? hh
      refine ⟨h.kind, hkind, fun demand hdemand => ?_⟩
      have required : f.kind? a = some demand := by
        obtain ⟨k', hk', admitted⟩ := legal.node
        cases hk.symm.trans hk'
        exact (entryKind?_iff admitted).mpr
          ⟨fun h => legal.properties (h ▸ hk) a hpassed,
            fun h => legal.handlers (congrArg Part.list h) a hpassed⟩ demand hdemand
      exact Option.some.inj (hkind.symm.trans required)
    · simp at optional
  · have old : a ∈ f.list e.node slot := by
      cases e with
      | append slot' node child =>
        cases hpart
        exact (List.mem_append.mp ha).resolve_right hpassed
      | setChild _ _ _ => cases hpart
      | setList _ _ _ => exact absurd ha hpassed
      | write _ _ | mark _ _ | setRange _ _ _ => cases hpart
    exact hf.entries hk old

namespace Transfer

variable (t : e.Transfer f g part)
include t

/-- **The children of the node of the edit, before and after.**  Of those that were not passed, the
edit replaces what stood in its part by what it writes. -/
theorem exists_children (hf : f.Linked) (hpart : e.part? = some part)
    (legal : e.Legal f part) :
    ∃ before kept after,
      (f.children e.node).filter (· ∉ e.moved) = before ++ kept ++ after ∧
      (∀ x, x ∈ kept ↔ some x ∈ f.occupants e.node part ∧ x ∉ e.moved) ∧
      g.children e.node = before ++ (e.content f).filterMap id ++ after := by
  obtain ⟨c, hc, admitted⟩ := legal.exists_contents hf.intact
  rw [← Contents.kind_without e.moved] at admitted
  obtain ⟨before, after, hlinks, hfill⟩ := Contents.exists_links_fill admitted
  refine ⟨before.filterMap id, ((c.without e.moved).occupants part).filterMap id,
    after.filterMap id, ?_, fun x => ?_, ?_⟩
  · rw [Forest.children_of_contents? hc, ← Contents.children_without, Contents.children, hlinks,
      List.filterMap_append, List.filterMap_append]
  · rw [Forest.occupants_of_contents? hc, ← Contents.mem_occupants_without]
    simp
  · rw [Forest.children_of_contents? (t.contents_node hc), Contents.children,
      hfill _ (holds_content hpart), List.filterMap_append, List.filterMap_append]

/-- What stands beside the part after the edit stood there before. -/
theorem mem_children_node (hf : f.Linked) (hpart : e.part? = some part) (legal : e.Legal f part)
    {x : NodeIndex} : x ∈ g.children e.node ↔ some x ∈ e.content f ∨
      x ∈ f.children e.node ∧ x ∉ e.moved ∧ some x ∉ f.occupants e.node part := by
  obtain ⟨before, kept, after, hbefore, hkept, hafter⟩ := t.exists_children hf hpart legal
  have nodup := (hf.nodup_children e.node).filter (· ∉ e.moved)
  have stays : x ∈ f.children e.node ∧ x ∉ e.moved ↔ x ∈ before ++ kept ++ after := by
    rw [← hbefore, List.mem_filter, decide_eq_true_iff]
  rw [hbefore] at nodup
  have apart : x ∈ before ++ after → x ∉ kept := by
    intro hx hk
    rw [List.append_assoc, List.nodup_append'] at nodup
    obtain ⟨-, nodup, disjoint⟩ := nodup
    rw [List.nodup_append'] at nodup
    rcases List.mem_append.mp hx with hx | hx
    · exact disjoint hx (List.mem_append_left _ hk)
    · exact nodup.2.2 hk hx
  rw [hafter, ← and_assoc, stays]
  simp only [List.mem_append, List.mem_filterMap, id_eq, exists_eq_right] at apart ⊢
  constructor
  · rintro ((hx | hx) | hx)
    · refine Or.inr ⟨Or.inl (Or.inl hx), fun hocc => apart (Or.inl hx) ?_⟩
      exact (hkept x).mpr ⟨hocc, (stays.mpr (by simp [hx])).2⟩
    · exact Or.inl hx
    · refine Or.inr ⟨Or.inr hx, fun hocc => apart (Or.inr hx) ?_⟩
      exact (hkept x).mpr ⟨hocc, (stays.mpr (by simp [hx])).2⟩
  · rintro (hx | ⟨(hx | hx) | hx, hocc⟩)
    · exact Or.inl (Or.inr hx)
    · exact Or.inl (Or.inl hx)
    · exact absurd ((hkept x).mp hx).1 hocc
    · exact Or.inr hx

/-- The node of the edit stores no child twice. -/
theorem nodup_children_node (hf : f.Linked) (hpart : e.part? = some part)
    (legal : e.Legal f part) : (g.children e.node).Nodup := by
  obtain ⟨before, kept, after, hbefore, hkept, hafter⟩ := t.exists_children hf hpart legal
  have nodup := (hf.nodup_children e.node).filter (· ∉ e.moved)
  rw [hbefore] at nodup
  have written := nodup_content hf hpart legal
  -- what is written was passed, and then it stands nowhere else, or it stood in the part
  have origin {x : NodeIndex} (hx : x ∈ (e.content f).filterMap id) :
      x ∈ e.moved ∨ x ∈ kept := by
    by_cases hmoved : x ∈ e.moved
    · exact Or.inl hmoved
    · refine Or.inr ((hkept x).mpr ⟨?_, hmoved⟩)
      exact (mem_content hpart (by simpa using hx)).resolve_left fun h =>
        hmoved (mem_moved.mpr h)
  have unmoved {x : NodeIndex} (hx : x ∈ before ++ kept ++ after) : x ∉ e.moved := by
    rw [← hbefore, List.mem_filter, decide_eq_true_iff] at hx
    exact hx.2
  rw [hafter]
  simp only [List.nodup_append', List.mem_append] at nodup unmoved ⊢
  obtain ⟨⟨nodup_before, nodup_kept, before_kept⟩, nodup_after, rest_after⟩ := nodup
  refine ⟨⟨nodup_before, written, ?_⟩, nodup_after, ?_⟩
  · intro x hx hx'
    rcases origin hx' with hm | hk
    · exact unmoved (Or.inl (Or.inl hx)) hm
    · exact before_kept hx hk
  · intro x hx hx'
    rcases List.mem_append.mp hx with hx | hx
    · exact rest_after (List.mem_append_left _ hx) hx'
    · rcases origin hx with hm | hk
      · exact unmoved (Or.inr hx') hm
      · exact rest_after (List.mem_append_right _ hk) hx'

/-- A node that was passed is stored where the edit stores it. -/
theorem mem_children_of_passed (hf : f.Linked) (hpart : e.part? = some part)
    (legal : e.Legal f part) {x : NodeIndex} (hx : some x ∈ e.children) :
    g.parent (some x) = e.node ∧ x ∈ g.children e.node := by
  refine ⟨by rw [t.parent hf legal, if_pos hx], ?_⟩
  rw [t.mem_children_node hf hpart legal]
  apply Or.inl
  cases e with
  | append slot node child => exact List.mem_append_right _ hx
  | setChild _ _ _ | setList _ _ _ => exact hx
  | write _ _ | mark _ _ | setRange _ _ _ => cases hpart

/-- A node that was not passed and has a parent afterwards has the parent it had, and is stored by
it if it was. -/
theorem mem_children_of_not_passed (hf : f.Linked) (hpart : e.part? = some part)
    (legal : e.Legal f part) {x p : NodeIndex} (hx : some x ∉ e.children)
    (hp : g.parent (some x) = some p) :
    f.parent (some x) = some p ∧ (x ∈ g.children (some p) ↔ x ∈ f.children (some p)) := by
  rw [t.parent hf legal, if_neg hx] at hp
  split at hp
  · cases hp
  · next kept =>
    have stays : x ∉ e.moved := fun h => hx (mem_moved.mp h)
    refine ⟨hp, ?_⟩
    by_cases hnode : some p = e.node
    · rw [hnode, t.mem_children_node hf hpart legal]
      constructor
      · rintro (hcontent | ⟨hmem, -⟩)
        · have hocc := (mem_content hpart hcontent).resolve_left hx
          exact Forest.mem_children_of_occupant part hocc
        · exact hmem
      · intro hmem
        by_cases hocc : some x ∈ f.occupants e.node part
        · exact Or.inl (not_not.mp fun h => kept ⟨hocc, h⟩)
        · exact Or.inr ⟨hmem, stays, hocc⟩
    · rw [t.children hnode, List.mem_filter, decide_eq_true_iff, and_iff_left stays]

/-- Whoever is stored after the edit has its holder as parent. -/
theorem parent_of_mem (hf : f.Linked) (hpart : e.part? = some part) (legal : e.Legal f part)
    {p : Link} {x : NodeIndex} (hx : x ∈ g.children p) : g.parent (some x) = p := by
  rw [t.parent hf legal]
  by_cases hnode : p = e.node
  · subst hnode
    rw [t.mem_children_node hf hpart legal] at hx
    split
    · rfl
    · next passed =>
      rcases hx with hcontent | ⟨hmem, -, hocc⟩
      · have hocc := (mem_content hpart hcontent).resolve_left passed
        rw [if_neg fun lost => lost.2 hcontent]
        exact hf.parent_of_mem (Forest.mem_children_of_occupant part hocc)
      · rw [if_neg fun lost => hocc lost.1]
        exact hf.parent_of_mem hmem
  · rw [t.children hnode, List.mem_filter, decide_eq_true_iff] at hx
    obtain ⟨hmem, hmoved⟩ := hx
    have held := hf.parent_of_mem hmem
    rw [if_neg fun h => hmoved (mem_moved.mpr h), if_neg, held]
    -- what the part has lost had the node of the edit as parent
    rintro ⟨hocc, -⟩
    exact hnode (hf.eq_of_mem_children hmem (Forest.mem_children_of_occupant part hocc))

/-- What a list holds after the edit. -/
theorem list (hf : f.Linked) (hpart : e.part? = some part) (legal : e.Legal f part) (p : Link)
    (slot : ListSlot) :
    g.list p slot =
      if p = e.node ∧ part = .list slot then e.content f
      else (f.list p slot).filter (· ∉ e.moved.map some) := by
  rw [Forest.list, Forest.list]
  split
  · next here =>
    obtain ⟨rfl, rfl⟩ := here
    obtain ⟨c, hc, admitted⟩ := legal.exists_contents hf.intact
    obtain ⟨entries, hentries⟩ : ∃ entries, c.list? slot = some entries := by
      rw [← Option.isSome_iff_exists, Contents.isSome_list?_iff]
      exact admitted
    rw [t.contents_node hc, Option.bind_some, Contents.list?_fill, Contents.list?_without,
      hentries]
    simp
  · next other =>
    rw [t.contents]
    cases f.contents? p with
    | none => rfl
    | some c =>
      rw [Option.map_some, Option.bind_some, Option.bind_some]
      by_cases hp : p = e.node
      · have hslot : part ≠ .list slot := fun h => other ⟨hp, h⟩
        rw [if_pos hp, Contents.list?_fill, Contents.list?_without, Option.map_map]
        cases c.list? slot <;> simp [hslot]
      · rw [if_neg hp, Contents.list?_without]
        cases c.list? slot <;> rfl

/-- A parent is a node. -/
theorem contains_parent (hf : f.Linked) (legal : e.Legal f part) {x : Link} {p : NodeIndex}
    (hx : g.parent x = some p) : g.contains (some p) := by
  rw [t.contains]
  cases x with
  | none => cases hx
  | some x =>
    rw [t.parent hf legal] at hx
    split at hx
    · exact hx ▸ legal.contains_node
    · split at hx
      · cases hx
      · exact hf.parents hx

end Transfer

end Edit

namespace Forest

/-- **A legal edit of a part leads from linked forests to linked forests.** -/
theorem Linked.of_transfer (hf : f.Linked) {e : Edit} {part : Part} (hpart : e.part? = some part)
    (legal : e.Legal f part) (t : e.Transfer f g part) : g.Linked where
  intact := t.intact
  grounded := by
    refine hf.grounded.of_moved (fun x => some x ∈ e.children) (p := e.node) ?_ ?_ ?_
    · intro x hx
      rw [t.parent hf legal, if_pos hx]
    · intro x hx
      rw [t.parent hf legal, if_neg hx]
      split
      · exact Or.inr rfl
      · exact Or.inl rfl
    · intro x hx n hn
      obtain ⟨hne, hancestor⟩ := legal.acyclic x hx
      cases n with
      | zero => exact hne hn.symm
      | succ n => exact hancestor ((mem_ancestors hf.grounded hf.parents hf.intact).mpr ⟨n, hn⟩)
  parents := t.contains_parent hf legal
  parent_of_mem := t.parent_of_mem hf hpart legal
  nodup_children := by
    intro p
    by_cases hp : p = e.node
    · exact hp ▸ t.nodup_children_node hf hpart legal
    · rw [t.children hp]
      exact (hf.nodup_children p).filter _
  entries := by
    intro p k slot a hk ha
    rw [t.kind?] at hk ⊢
    rw [t.list hf hpart legal] at ha
    split at ha
    · next written =>
      obtain ⟨rfl, rfl⟩ := written
      exact Edit.kind?_of_mem_content hf hpart legal hk ha
    · exact hf.entries hk (List.mem_of_mem_filter ha)

/-- Whether two forests have the same trees, whatever else is different. -/
structure SameTrees (f g : Forest) : Prop where
  intact : g.Intact
  parent : ∀ x, g.parent x = f.parent x
  children : ∀ x, g.children x = f.children x
  list : ∀ x slot, g.list x slot = f.list x slot
  kind? : ∀ x, g.kind? x = f.kind? x

/-- A forest with the same trees as a linked one is linked. -/
theorem Linked.congr (hf : f.Linked) (same : f.SameTrees g) : g.Linked where
  intact := same.intact
  grounded := hf.grounded.congr same.parent
  parents := by
    intro x p hx
    rw [same.parent] at hx
    have known := hf.parents hx
    rwa [contains, ← Option.isSome_map, ← kind?, ← same.kind?, kind?, Option.isSome_map] at known
  parent_of_mem := by
    intro p x hx
    rw [same.children] at hx
    rw [same.parent, hf.parent_of_mem hx]
  nodup_children := fun p => same.children p ▸ hf.nodup_children p
  entries := by
    intro p k slot a hk ha
    rw [same.kind?] at hk ⊢
    exact hf.entries hk (same.list p slot ▸ ha)

end Forest

/-! ## Values, marks and ranges -/

namespace Scalar

@[simp] theorem kind_write (s : Scalar) (c : Contents) : (s.write c).kind = c.kind := by
  cases c <;> rfl

theorem body_writeLoop (s : Scalar) (loop : Contents.Loop) :
    (s.writeLoop loop).body = loop.body := by
  cases s <;> simp only [writeLoop]
  split <;> rfl

theorem list?_write (s : Scalar) (c : Contents) (slot : ListSlot) :
    (s.write c).list? slot = c.list? slot := by
  cases c <;> cases slot <;> first | rfl | (cases s <;> rfl)

/-- No value is a link. -/
theorem links_write (s : Scalar) (c : Contents) : (s.write c).links = c.links := by
  cases c with
  | forInLoop c | doLoop c | whileLoop c =>
    cases s <;> simp [write, Contents.links, body_writeLoop]
  | _ => first | rfl | (cases s <;> rfl)

end Scalar

/-- No mark is a parent. -/
theorem Mark.parent_write (m : Mark) (r : NodeRecord) : (m.write r).parent = r.parent := by
  cases m with
  | attach attachment _ => cases attachment <;> rfl
  | _ => rfl

namespace Forest

/-- Another value leaves the trees. -/
theorem Intact.sameTrees_write (hf : f.Intact) (s : Scalar) {x : Link} {c : Contents}
    (hc : f.contents? x = some c) : f.SameTrees (f.setContents x (s.write c)) := by
  have contents (y : Link) : (f.setContents x (s.write c)).contents? y =
      if y = x then some (s.write c) else f.contents? y :=
    contents?_setContents hf hc (s.kind_write c) y
  refine ⟨hf.setContents .., fun y => ?_, fun y => ?_, fun y slot => ?_, fun y => ?_⟩
  · rw [parent, record?_setContents, parent]
  · rw [children, contents, children]
    by_cases hy : y = x
    · rw [if_pos hy, hy, hc]
      exact congrArg (List.filterMap id) (s.links_write c)
    · rw [if_neg hy]
  · rw [list, contents, list]
    by_cases hy : y = x
    · rw [if_pos hy, hy, hc, Option.bind_some, Option.bind_some, s.list?_write]
    · rw [if_neg hy]
  · rw [kind?, header?_setContents, kind?]

/-- Another mark leaves the trees. -/
theorem Intact.sameTrees_mark (hf : f.Intact) (m : Mark) (x : Link) :
    f.SameTrees (f.modifyRecord x m.write) := by
  refine ⟨hf.modifyRecord .., fun y => ?_, fun y => ?_, fun y slot => ?_, fun y => ?_⟩
  · rw [parent, record?_modifyRecord, parent]
    by_cases hxy : x = y
    · rw [if_pos hxy]
      cases f.record? y with
      | none => rfl
      | some r => exact m.parent_write r
    · rw [if_neg hxy]
  · rw [children, contents?_modifyRecord, children]
  · rw [list, contents?_modifyRecord, list]
  · rw [kind?, header?_modifyRecord, kind?]

/-- Another range leaves the trees. -/
theorem Intact.sameTrees_setRange (hf : f.Intact) (x : Link) (pos len : Int32) :
    f.SameTrees (f.setRange x pos len) := by
  refine ⟨hf.setRange .., fun y => ?_, fun y => ?_, fun y slot => ?_, fun y => kind?_setRange ..⟩
  · rw [parent, record?_setRange, parent]
  · rw [children, contents?_setRange, children]
  · rw [list, contents?_setRange, list]

/-! ## New nodes -/

/-- The contents of a new node have no child. -/
theorem children_eq_nil_of_construction {c : Construction} {contents : Contents}
    (h : c.contents? = some contents) : contents.children = [] := by
  cases c with
  | node kind _ _ => cases kind <;> cases h <;> rfl
  | _ => cases h <;> rfl

theorem list?_of_construction {c : Construction} {contents : Contents} {slot : ListSlot}
    {entries : List Link} (h : c.contents? = some contents)
    (hentries : contents.list? slot = some entries) : entries = [] := by
  cases c with
  | node kind _ _ => cases kind <;> cases h <;> cases slot <;> cases hentries <;> rfl
  | _ => cases h <;> cases slot <;> cases hentries

section Construct

variable (hf : f.Linked) (id : Nat) (c : Construction)

theorem kind?_construct {x : Link} {k : Kind} (h : f.kind? x = some k) :
    (f.construct id c).kind? x = some k := by
  rw [kind?, construct, header?_push, if_neg]
  · exact h
  · rintro rfl
    rw [kind?, header?_of_not_contains contains_size] at h
    cases h

include hf

theorem parent_construct (x : Link) : (f.construct id c).parent x = f.parent x := by
  rw [parent, construct, record?_push _ _ _ _ _ hf.intact, parent]
  by_cases hx : x = some f.size
  · rw [if_pos hx, hx, hf.intact.record?_of_not_contains contains_size]
    rfl
  · rw [if_neg hx]

theorem contents?_construct (x : Link) : (f.construct id c).contents? x =
    if x = some f.size then c.contents? else f.contents? x :=
  contents?_push _ _ _ hf.intact (fun _ h => Construction.kind_of_contents? h) x

theorem children_construct (x : Link) : (f.construct id c).children x = f.children x := by
  rw [children, contents?_construct hf, children]
  by_cases hx : x = some f.size
  · rw [if_pos hx, hx, contents?_of_not_contains contains_size]
    cases hc : c.contents? with
    | none => rfl
    | some contents => exact children_eq_nil_of_construction hc
  · rw [if_neg hx]

/-- **A new node is a tree of its own.** -/
theorem Linked.construct : (f.construct id c).Linked where
  intact := hf.intact.construct id c
  grounded := hf.grounded.congr (parent_construct hf id c)
  parents := by
    intro x p hx
    rw [parent_construct hf id c] at hx
    obtain ⟨h, hh⟩ := exists_header?_of_contains (hf.parents hx)
    have kept := kind?_construct id c (kind?_of_header? hh)
    obtain ⟨h', hh', -⟩ := Option.map_eq_some_iff.mp kept
    exact contains_of_header? hh'
  parent_of_mem := by
    intro p x hx
    rw [children_construct hf id c] at hx
    rw [parent_construct hf id c, hf.parent_of_mem hx]
  nodup_children := fun p => children_construct hf id c p ▸ hf.nodup_children p
  entries := by
    intro p k slot a hk ha
    rw [list, contents?_construct hf] at ha
    rw [kind?, Forest.construct, header?_push] at hk
    split at ha
    · cases hc : c.contents? with
      | none => simp [hc] at ha
      | some contents =>
        cases hl : contents.list? slot with
        | none => simp [hc, hl] at ha
        | some entries => simp [hc, hl, list?_of_construction hc hl] at ha
    · next old =>
      rw [if_neg old] at hk
      obtain ⟨kind, hkind, demands⟩ := hf.entries hk ha
      exact ⟨kind, kind?_construct id c hkind, demands⟩

end Construct

theorem linked_empty : Forest.empty.Linked where
  intact := intact_empty
  grounded := fun x => ⟨1, by cases x <;> rfl⟩
  parents := by
    intro x p hx
    cases x <;> cases hx
  parent_of_mem := by
    intro p x hx
    cases p <;> cases hx
  nodup_children := by
    intro p
    cases p <;> exact List.nodup_nil
  entries := by
    intro p k slot a hk
    cases p <;> cases hk

end Forest

end SyntaxForest
