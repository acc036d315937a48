import SyntaxForest.Proofs.Extensionality
import SyntaxForest.Proofs.Runs

/-!
# Adding to a list and replacing it

To add a child to a list is to replace the list by itself with the child behind it.  The second way
asks for more: every entry is checked again, taken out of the list, and put back.  In a linked
forest the entries pass every check (`Linked.checkList_list`), and nothing tells that they were
taken out (`Contents.setList_without_append`).

The checks come in different orders.  Handlers are asked for their kind before or after it is asked
whether they are in the list already; this makes no difference, since what is in the list is a
handler.  The properties of an object are asked for their kind before anything else, or only when
they are known to be nodes; there the two ways can refuse the same child for different causes.
-/

namespace SyntaxForest

/-- What is taken out of a list that is written afterwards is taken out nowhere else. -/
theorem Contents.setList_without_append {c : Contents} {slot : ListSlot} {entries : List Link}
    (hlist : c.list? slot = some entries) (nodup : c.children.Nodup) (gone : List NodeIndex)
    (content : List Link) :
    (c.without (entries.filterMap id ++ gone)).setList slot content =
      (c.without gone).setList slot content := by
  rw [← without_without]
  cases c with
  | tryStatement c =>
    -- the one kind that has slots beside a list
    cases slot with
    | catchClauses =>
      obtain rfl : c.catchClauses = entries := Option.some.inj hlist
      have links : (tryStatement c).children = c.tryBlock.toList ++
          (c.catchClauses.filterMap id ++ c.finallyBlock.toList) := by
        simp [children, Contents.links, List.filterMap_eq_flatMap_toList]
      rw [links, List.nodup_append', List.nodup_append'] at nodup
      obtain ⟨-, ⟨-, -, behind⟩, before⟩ := nodup
      have first : c.tryBlock ∉ (c.catchClauses.filterMap id).map some := by
        rintro hmem
        obtain ⟨x, hx, same⟩ := List.mem_map.mp hmem
        exact before (Option.mem_toList.mpr same.symm) (List.mem_append_left _ hx)
      have last : c.finallyBlock ∉ (c.catchClauses.filterMap id).map some := by
        rintro hmem
        obtain ⟨x, hx, same⟩ := List.mem_map.mp hmem
        exact behind hx (Option.mem_toList.mpr same.symm)
      simp only [without, rewire, setList, first, last, if_false]
    | elements | statements => cases hlist
  | _ => cases slot <;> first | rfl | cases hlist

namespace Forest

variable {f : Forest}

/-- Absence is a question of what is in a list. -/
theorem checkAbsent_congr {slot : ListSlot} {child : Link} {entries entries' : List Link}
    (h : child ∈ entries ↔ child ∈ entries') :
    checkAbsent slot child entries = checkAbsent slot child entries' := by
  simp only [checkAbsent, h]

/-- The last entry of a list is checked when the others have passed. -/
theorem checkList_concat (node : Link) (slot : ListSlot) (demand : Option Kind)
    (before entries : List Link) (child : Link) :
    f.checkList node slot demand before (entries ++ [child]) = (do
      f.checkList node slot demand before entries
      f.checkChild node child (.list slot) true
      f.checkKind child demand
      checkAbsent slot child (entries ++ before)) := by
  induction entries generalizing before with
  | nil =>
    simp only [List.nil_append, checkList, bind_pure_unit, pure_bind]
  | cons entry entries ih =>
    have absent : checkAbsent slot child (entries ++ entry :: before) =
        checkAbsent slot child (entry :: entries ++ before) :=
      checkAbsent_congr (by simp [or_left_comm])
    rw [List.cons_append, checkList, ih, absent, checkList]
    simp only [bind_assoc]

/-- What stands in a list could be put there again. -/
theorem Linked.checkList_list (hf : f.Linked) {node : Link} {k : Kind} (hk : f.kind? node = some k)
    (slot : ListSlot) :
    f.checkList node slot (slot.entryKind? k) [] (f.list node slot) = .ok () := by
  rw [checkList_eq_ok_iff]
  refine ⟨fun child hchild => ?_, hf.nodup_list node slot⟩
  obtain ⟨kind, hkind, demanded⟩ := hf.entries hk hchild
  refine ⟨checkChild_eq_ok_iff.mpr ⟨contains_of_kind? hk, ?_⟩, fun demand hdemand => ?_,
    List.not_mem_nil⟩
  · cases child with
    | none => exact absurd hchild (hf.none_notMem_list node slot)
    | some x =>
      -- whoever stands below a node is neither the node nor above it
      have held := hf.parent_of_mem (mem_children_of_mem_list slot hchild)
      refine ⟨contains_of_kind? hkind, fun same => ?_, fun above => ?_⟩
      · exact hf.grounded.iterate_ne x 0 (held.trans same.symm)
      · obtain ⟨n, hn⟩ := (mem_ancestors hf.grounded hf.parents hf.intact).mp above
        rw [← held, ← Function.iterate_succ_apply] at hn
        exact hf.grounded.iterate_ne x (n + 1) hn
  · rw [hkind, demanded demand hdemand]

/-- With all entries checked again, the child is left to be checked. -/
theorem Linked.checkList_list_concat (hf : f.Linked) {node child : Link} {k : Kind}
    (hk : f.kind? node = some k) (slot : ListSlot) :
    f.checkList node slot (slot.entryKind? k) [] (f.list node slot ++ [child]) = (do
      f.checkChild node child (.list slot) true
      f.checkKind child (slot.entryKind? k)
      checkAbsent slot child (f.list node slot)) := by
  rw [checkList_concat, hf.checkList_list hk, List.append_nil]
  rfl

/-- What stands in a list is of the kind that the list demands, so it makes no difference which of
the two is asked first. -/
theorem Linked.checkAbsent_checkKind (hf : f.Linked) {node child : Link} {k : Kind}
    (hk : f.kind? node = some k) (slot : ListSlot) :
    (do checkAbsent slot child (f.list node slot); f.checkKind child (slot.entryKind? k)) =
      (do f.checkKind child (slot.entryKind? k); checkAbsent slot child (f.list node slot)) := by
  by_cases listed : child ∈ f.list node slot
  · obtain ⟨kind, hkind, demanded⟩ := hf.entries hk listed
    have suits : f.checkKind child (slot.entryKind? k) = .ok () :=
      checkKind_eq_ok_iff.mpr fun demand hdemand => by rw [hkind, demanded demand hdemand]
    rw [suits, checkAbsent, if_pos listed]
    rfl
  · rw [checkAbsent_eq_ok_iff.mpr listed]
    exact bind_pure_unit.symm

/-- **Both ways demand the same of a child,** and unless the list holds properties, in an order that
makes no difference. -/
theorem Linked.checkAppend_eq (hf : f.Linked) {node child : Link} {k : Kind} {slot : ListSlot}
    (hk : f.kind? node = some k) (plain : slot = .elements → k ≠ .objectLiteral) :
    f.checkAppend node child slot (slot.entryKind? k) =
      f.checkList node slot (slot.entryKind? k) [] (f.list node slot ++ [child]) := by
  rw [hf.checkList_list_concat hk, ← hf.checkAbsent_checkKind hk]
  cases slot with
  | elements =>
    have free : ListSlot.elements.entryKind? k = none := by
      cases k <;> first | rfl | exact absurd rfl (plain rfl)
    simp only [free, checkAppend, checkKind, pure_bind, bind_pure_unit]
  | statements | catchClauses => simp only [checkAppend, bind_assoc]

theorem Linked.checkAppend_eq_ok_iff_checkList (hf : f.Linked) {node child : Link} {k : Kind}
    (hk : f.kind? node = some k) (slot : ListSlot) :
    f.checkAppend node child slot (slot.entryKind? k) = .ok () ↔
      f.checkList node slot (slot.entryKind? k) [] (f.list node slot ++ [child]) = .ok () := by
  rw [hf.checkList_list_concat hk, checkAppend_eq_ok_iff, seq_eq_ok_iff, seq_eq_ok_iff,
    checkKind_eq_ok_iff, checkAbsent_eq_ok_iff]

end Forest

namespace Edit

variable {f : Forest} {slot : ListSlot} {node child : Link}

/-- What is demanded of adding a child and of replacing the list, except for properties. -/
theorem demands_append_eq (hf : f.Linked)
    (plain : slot = .elements → f.kind? node ≠ some .objectLiteral) :
    (append slot node child).demands f =
      (setList slot node (f.list node slot ++ [child])).demands f := by
  simp only [demands, bind, Except.bind]
  cases hh : f.headerOf slot.owner node with
  | error err => rfl
  | ok h =>
    have kind := Forest.kind?_of_header? (Forest.headerOf_eq_ok_iff.mp hh).1
    simp only [hf.checkAppend_eq kind fun elements object =>
      plain elements (kind.trans (congrArg some object))]

/-- Whatever the list holds, both ways are refused or neither is. -/
theorem demands_append_eq_ok_iff_setList (hf : f.Linked) :
    (append slot node child).demands f = .ok () ↔
      (setList slot node (f.list node slot ++ [child])).demands f = .ok () := by
  have added : (append slot node child).demands f = .ok () ↔ _ :=
    holder_eq_ok_iff hf.intact (.list slot) fun k =>
      f.checkAppend node child slot (slot.entryKind? k)
  have replaced : (setList slot node (f.list node slot ++ [child])).demands f = .ok () ↔ _ :=
    holder_eq_ok_iff hf.intact (.list slot) fun k =>
      f.checkList node slot (slot.entryKind? k) [] _
  rw [added, replaced]
  exact exists_congr fun k => and_congr_right fun hk => and_congr_right fun _ =>
    hf.checkAppend_eq_ok_iff_checkList hk slot

/-- **Both ways lead to the same forest.** -/
theorem Transfer.eq_of_append_of_setList (hf : f.Linked) {g g' : Forest}
    (legal : (append slot node child).Legal f (.list slot))
    (added : (append slot node child).Transfer f g (.list slot))
    (replaced : (setList slot node (f.list node slot ++ [child])).Transfer f g' (.list slot)) :
    g = g' := by
  have held {y : NodeIndex} (hy : some y ∈ f.list node slot) : f.parent (some y) = node :=
    hf.parent_of_mem (Forest.mem_children_of_mem_list slot hy)
  have entries {c : Contents} (hc : f.contents? node = some c) :
      c.list? slot = some (f.list node slot) := by
    obtain ⟨c', hc', admitted⟩ := legal.exists_contents hf.intact
    cases hc.symm.trans hc'
    obtain ⟨old, hold⟩ := Option.isSome_iff_exists.mp
      ((Contents.isSome_list?_iff c slot).trans admitted)
    rw [Forest.list, hc, Option.bind_some, hold, Option.getD_some]
  have moved : (setList slot node (f.list node slot ++ [child])).moved =
      (f.list node slot).filterMap id ++ (append slot node child).moved :=
    List.filterMap_append ..
  refine replaced.intact.eq_of_views added.intact (added.headers.trans replaced.headers.symm)
    (fun y => ?_) fun y => ?_
  · rw [added.contents, replaced.contents, moved]
    refine Option.map_congr fun c hc => ?_
    show (if y = node then
        (c.without (append slot node child).moved).setList slot (f.list node slot ++ [child])
      else c.without (append slot node child).moved) = if y = node then _ else _
    by_cases hy : y = node
    · rw [if_pos hy, if_pos hy]
      subst hy
      have nodup : c.children.Nodup := Forest.children_of_contents? hc ▸ hf.nodup_children y
      exact (Contents.setList_without_append (entries hc) nodup _ _).symm
    · -- the entries stand under the node and nowhere else
      have elsewhere : c.without ((f.list node slot).filterMap id) = c := by
        refine Contents.without_eq_self fun x hx stored => hy ?_
        have listed : some x ∈ f.list node slot := by simpa using hx
        have parent := hf.parent_of_mem (Forest.mem_children_iff.mpr ⟨c, hc, stored⟩)
        exact parent.symm.trans (held listed)
      rw [if_neg hy, if_neg hy, ← Contents.without_without, elsewhere]
  · rw [added.record, replaced.record]
    refine Option.map_congr fun r hr => congrArg r.withParent ?_
    rw [Forest.occupants_list, Forest.occupants_list]
    show (if y ∈ [child] then node
      else if y ∈ f.list node slot ∧ y ∉ f.list node slot ++ [child] then none else r.parent) =
      if y ∈ f.list node slot ++ [child] then node
      else if y ∈ f.list node slot ∧ y ∉ f.list node slot ++ [child] then none else r.parent
    by_cases passed : y ∈ [child]
    · rw [if_pos passed, if_pos (List.mem_append_right _ passed)]
    · by_cases listed : y ∈ f.list node slot
      · have stays := List.mem_append_left [child] listed
        rw [if_neg passed, if_neg fun lost => lost.2 stays, if_pos stays]
        cases y with
        | none => exact absurd listed (hf.none_notMem_list node slot)
        | some x => rw [← held listed, Forest.parent, hr, Option.bind_some]
      · rw [if_neg passed, if_neg (by simp [passed, listed] : y ∉ f.list node slot ++ [child])]

end Edit

/-- **To add a child to a list is to replace the list by itself with the child behind it.**  Both
ways have the same outcome, the error included, except for the properties of an object: there both
succeed and leave the same forest, or both are refused and leave the forest as it is. -/
theorem Reached.append_eq_setList {f : Forest} {loose : List NodeIndex} (h : Reached f loose)
    (slot : ListSlot) (node child : Link) :
    ((slot = .elements → f.kind? node ≠ some .objectLiteral) →
      (Edit.append slot node child).run.run f =
        (Edit.setList slot node (f.list node slot ++ [child])).run.run f) ∧
    ((∃ g, (Edit.append slot node child).run.run f = .ok () g ∧
        (Edit.setList slot node (f.list node slot ++ [child])).run.run f = .ok () g) ∨
      ∃ err err', (Edit.append slot node child).run.run f = .error err f ∧
        (Edit.setList slot node (f.list node slot ++ [child])).run.run f = .error err' f) := by
  have hf := h.tended.linked
  have agree : (Edit.append slot node child).demands f = .ok () ↔
      (Edit.setList slot node (f.list node slot ++ [child])).demands f = .ok () :=
    Edit.demands_append_eq_ok_iff_setList hf
  cases added : (Edit.append slot node child).demands f with
  | ok =>
    have legal := (Edit.demands_eq_ok_iff hf.intact rfl).mp added
    have legal' := (Edit.demands_eq_ok_iff hf.intact rfl).mp (agree.mp added)
    obtain ⟨g, run, t⟩ := Edit.exists_transfer hf rfl legal
    obtain ⟨g', run', t'⟩ := Edit.exists_transfer hf rfl legal'
    obtain rfl := Edit.Transfer.eq_of_append_of_setList hf legal t t'
    exact ⟨fun _ => run.trans run'.symm, .inl ⟨g, run, run'⟩⟩
  | error err =>
    have refused := Edit.run_of_demands_error added
    refine ⟨fun plain => ?_, ?_⟩
    · rw [Edit.demands_append_eq hf plain] at added
      rw [refused, Edit.run_of_demands_error added]
    · cases replaced : (Edit.setList slot node (f.list node slot ++ [child])).demands f with
      | ok => cases added.symm.trans (agree.mpr replaced)
      | error err' => exact .inr ⟨err, err', refused, Edit.run_of_demands_error replaced⟩

/-- The clone of a block is added to the block, behind the loop that the block holds. -/
theorem append_eq_setList_nested :
    (Command.perform Command.nested).1.list (some 0) .statements = [some 1] ∧
    (Edit.append .statements (some 0) (some 3)).run.run (Command.perform Command.nested).1 =
      (Edit.setList .statements (some 0) [some 1, some 3]).run.run
        (Command.perform Command.nested).1 ∧
    ∃ g, (Edit.append .statements (some 0) (some 3)).run.run
      (Command.perform Command.nested).1 = .ok () g := by
  have before : (Command.perform Command.nested).1.list (some 0) .statements = [some 1] := by
    decide +kernel
  have h := reached_perform Command.nested
  have legal : (Edit.append .statements (some 0) (some 3)).Legal
      (Command.perform Command.nested).1 (.list .statements) :=
    (Edit.demands_eq_ok_iff h.tended.linked.intact rfl).mp (by decide +kernel)
  obtain ⟨g, run, -⟩ := Edit.exists_transfer h.tended.linked rfl legal
  have same := (Reached.append_eq_setList h .statements (some 0) (some 3)).1 nofun
  rw [before] at same
  exact ⟨before, same, g, run⟩

/-- What is no node is refused for that, or as a child that is missing. -/
example :
    (Edit.append .elements (some 0) none).demands
        (Command.perform [(1, .construct (.node .objectLiteral 0 0))]).1 =
      .error (.unknownNode none) ∧
    (Edit.setList .elements (some 0) [none]).demands
        (Command.perform [(1, .construct (.node .objectLiteral 0 0))]).1 =
      .error (.missingRequiredChild .objectLiteral (.list .elements)) := by
  decide +kernel

end SyntaxForest
