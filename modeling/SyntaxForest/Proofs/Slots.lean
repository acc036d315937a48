import Mathlib.Data.List.Basic
import SyntaxForest.Contents

/-!
# The parts of contents that hold children

Editing sees the contents of a node through its *parts*: a slot with one occupant, or a list.  This
module says of each operation on contents what it does to every part, so that nothing later opens
`Contents` by cases.

* `Contents.occupants` and `Contents.fill` read and write one part, whichever it is.
* `Contents.without` takes nodes out of all parts at once; `erase` is the case of one node.
* `Contents.scalars` is everything besides the links.

A part is a segment of the links in structural order (`exists_links_fill`), and writing it replaces
the segment.  That is what turns a statement about slots into one about lists of children.
-/

namespace SyntaxForest

/-- Every slot, once. -/
def ChildSlot.all : List ChildSlot :=
  [.left, .right, .expression, .condition, .thenPart, .elsePart, .tryBlock, .finallyBlock,
    .varName, .guard, .handlerBody, .body, .iterator, .iteratedObject]

theorem ChildSlot.mem_all (slot : ChildSlot) : slot ∈ ChildSlot.all := by cases slot <;> decide

/-- Every list, once. -/
def ListSlot.all : List ListSlot := [.elements, .statements, .catchClauses]

theorem ListSlot.mem_all (slot : ListSlot) : slot ∈ ListSlot.all := by cases slot <;> decide

namespace Part

/-- The nodes that have the part. -/
def owner : Part → Expectation
  | .child slot => slot.owner
  | .list slot => slot.owner
  | .token => .kind .numberLiteral

/-- Whether some links, in this order, are a possible content of the part: a slot has one occupant,
which may be none, and a list any number. -/
def Holds : Part → List Link → Prop
  | .child _, content => content.length = 1
  | .list _, _ => True
  | .token, content => content = []

end Part

namespace Contents

/-- What stands in a part: the occupant of a slot, or the entries of a list. -/
def occupants (c : Contents) : Part → List Link
  | .child slot => (c.child? slot).toList
  | .list slot => (c.list? slot).getD []
  | .token => []

/-- The contents with other occupants in a part. -/
def fill (part : Part) (content : List Link) (c : Contents) : Contents :=
  match part with
  | .child slot => c.setChild slot (content.headD none)
  | .list slot => c.setList slot content
  | .token => c

/-- The contents with some nodes taken out of every slot and list in which they stand. -/
def without (gone : List NodeIndex) (c : Contents) : Contents :=
  c.rewire (fun a => if a ∈ gone.map some then none else a) (·.filter (· ∉ gone.map some))

/-- The contents with all slots and lists empty. -/
def scalars (c : Contents) : Contents := c.rewire (fun _ => none) (fun _ => [])

/-! ## Changing links anywhere -/

/-- Links that are changed twice are changed by both functions in turn. -/
theorem rewire_rewire (slot slot' : Link → Link) (list list' : List Link → List Link)
    (c : Contents) :
    (c.rewire slot list).rewire slot' list' = c.rewire (slot' ∘ slot) (list' ∘ list) := by
  cases c <;> rfl

theorem rewire_id (c : Contents) : c.rewire id id = c := by cases c <;> rfl

/-- Only what a change does to the links at hand matters. -/
theorem rewire_congr {slot slot' : Link → Link} {list list' : List Link → List Link}
    {c : Contents} (hslot : ∀ a ∈ c.links, slot a = slot' a)
    (hlist : ∀ entries ⊆ c.links, list entries = list' entries) :
    c.rewire slot list = c.rewire slot' list' := by
  cases c with
  | tryStatement c =>
    -- the one case where a list is a proper part of the links
    have entries : c.catchClauses ⊆ (Contents.tryStatement c).links := by
      intro a ha
      simp [links, ha]
    rw [rewire, rewire, hlist _ entries, hslot _ (by simp [links]),
      hslot c.finallyBlock (by simp [links])]
  | _ => simp_all [rewire, links]

theorem child?_rewire (slot : Link → Link) (list : List Link → List Link) (c : Contents)
    (place : ChildSlot) : (c.rewire slot list).child? place = (c.child? place).map slot := by
  cases c <;> cases place <;> rfl

theorem list?_rewire (slot : Link → Link) (list : List Link → List Link) (c : Contents)
    (place : ListSlot) : (c.rewire slot list).list? place = (c.list? place).map list := by
  cases c <;> cases place <;> rfl

@[simp] theorem scalars_rewire (slot : Link → Link) (list : List Link → List Link)
    (c : Contents) : (c.rewire slot list).scalars = c.scalars := by
  rw [scalars, rewire_rewire]
  rfl

/-! ## Taking nodes out -/

theorem erase_eq_without (x : NodeIndex) (c : Contents) : c.erase (some x) = c.without [x] := by
  simp only [erase, without, List.map_cons, List.map_nil, List.mem_singleton]

@[simp] theorem kind_without (gone : List NodeIndex) (c : Contents) :
    (c.without gone).kind = c.kind := kind_rewire ..

@[simp] theorem scalars_without (gone : List NodeIndex) (c : Contents) :
    (c.without gone).scalars = c.scalars := scalars_rewire ..

theorem child?_without (gone : List NodeIndex) (c : Contents) (slot : ChildSlot) :
    (c.without gone).child? slot =
      (c.child? slot).map fun a => if a ∈ gone.map some then none else a :=
  child?_rewire ..

theorem list?_without (gone : List NodeIndex) (c : Contents) (slot : ListSlot) :
    (c.without gone).list? slot = (c.list? slot).map (·.filter (· ∉ gone.map some)) :=
  list?_rewire ..

/-- What stands in a part when some nodes have been taken out. -/
theorem mem_occupants_without {gone : List NodeIndex} {c : Contents} {part : Part}
    {x : NodeIndex} :
    some x ∈ (c.without gone).occupants part ↔ some x ∈ c.occupants part ∧ x ∉ gone := by
  cases part with
  | child slot =>
    rw [occupants, occupants, child?_without]
    cases c.child? slot with
    | none => simp
    | some old =>
      simp only [Option.map_some, Option.toList_some, List.mem_singleton]
      constructor
      · intro h
        split at h
        · cases h
        · next hold => exact ⟨h, fun hx => hold (h ▸ List.mem_map_of_mem hx)⟩
      · rintro ⟨rfl, hx⟩
        rw [if_neg (by simpa using hx)]
  | list slot =>
    rw [occupants, occupants, list?_without]
    cases c.list? slot with
    | none => simp
    | some entries =>
      simp only [Option.map_some, Option.getD_some, List.mem_filter, decide_eq_true_eq,
        List.mem_map_of_injective fun _ _ => Option.some.inj]
  | token => simp [occupants]

/-- To take nodes out one after the other is to take them all out. -/
theorem without_without (gone gone' : List NodeIndex) (c : Contents) :
    (c.without gone).without gone' = c.without (gone ++ gone') := by
  rw [without, without, rewire_rewire, without]
  refine rewire_congr (fun a _ => ?_) (fun entries _ => ?_)
  · rw [Function.comp_apply, List.map_append]
    by_cases h : a ∈ gone.map some
    · rw [if_pos h, if_pos (List.mem_append_left _ h), ite_self]
    · rw [if_neg h]
      simp only [List.mem_append, h, false_or]
  · simp only [Function.comp_apply, List.filter_filter, List.map_append, List.mem_append, not_or,
      Bool.decide_and, Bool.and_comm]

/-- Nothing is taken out of contents that hold none of the nodes. -/
theorem without_eq_self {gone : List NodeIndex} {c : Contents}
    (h : ∀ x ∈ gone, some x ∉ c.links) : c.without gone = c := by
  have kept {a : Link} (ha : a ∈ c.links) : a ∉ gone.map some := by
    intro hgone
    obtain ⟨x, hx, rfl⟩ := List.mem_map.mp hgone
    exact h x hx ha
  conv_rhs => rw [← rewire_id c]
  refine rewire_congr (fun a ha => if_neg (kept ha)) (fun entries hentries => ?_)
  exact List.filter_eq_self.mpr fun a ha => decide_eq_true (kept (hentries ha))

theorem mem_children {c : Contents} {x : NodeIndex} : x ∈ c.children ↔ some x ∈ c.links := by
  simp [children]

/-- Taking nodes out leaves the other children, in their order. -/
theorem children_without (gone : List NodeIndex) (c : Contents) :
    (c.without gone).children = c.children.filter (· ∉ gone) := by
  have slot (a : Link) : (if a ∈ gone.map some then none else a).toList =
      a.toList.filter (· ∉ gone) := by
    cases a with
    | none => simp
    | some x => by_cases h : x ∈ gone <;> simp [h]
  have list (entries : List Link) : (entries.filter (· ∉ gone.map some)).flatMap Option.toList =
      (entries.flatMap Option.toList).filter (· ∉ gone) := by
    induction entries with
    | nil => rfl
    | cons a entries ih =>
      rw [List.flatMap_cons, List.filter_append, ← ih]
      cases a with
      | none => simp
      | some x =>
        by_cases h : x ∈ gone
        · rw [List.filter_cons_of_neg (by simpa using h)]
          simp [h]
        · rw [List.filter_cons_of_pos (by simpa using h)]
          simp [h]
  simp only [children, List.filterMap_eq_flatMap_toList, id_eq]
  cases c <;>
    simp only [without, rewire, links, List.flatMap_cons, List.flatMap_append, List.flatMap_nil,
      List.filter_append, List.filter_nil, slot, list]

/-! ## Writing one part -/

theorem child?_setChild (slot place : ChildSlot) (child : Link) (c : Contents) :
    (c.setChild slot child).child? place =
      (c.child? place).map fun old => if slot = place then child else old := by
  cases c <;> cases place <;> cases slot <;> rfl

theorem list?_setChild (slot : ChildSlot) (place : ListSlot) (child : Link) (c : Contents) :
    (c.setChild slot child).list? place = c.list? place := by
  cases c <;> cases place <;> cases slot <;> rfl

theorem child?_setList (slot : ListSlot) (place : ChildSlot) (children : List Link)
    (c : Contents) : (c.setList slot children).child? place = c.child? place := by
  cases c <;> cases place <;> cases slot <;> rfl

theorem list?_setList (slot place : ListSlot) (children : List Link) (c : Contents) :
    (c.setList slot children).list? place =
      (c.list? place).map fun old => if slot = place then children else old := by
  cases c <;> cases place <;> cases slot <;> rfl

/-- Writing a part keeps the kind. -/
@[simp] theorem kind_fill (part : Part) (content : List Link) (c : Contents) :
    (c.fill part content).kind = c.kind := by
  cases part <;> simp [fill]

/-- Writing a part keeps everything besides the links. -/
@[simp] theorem scalars_fill (part : Part) (content : List Link) (c : Contents) :
    (c.fill part content).scalars = c.scalars := by
  cases part with
  | child slot => cases c <;> cases slot <;> rfl
  | list slot => cases c <;> cases slot <;> rfl
  | token => rfl

/-- Writing a part shows at that slot and at no other. -/
theorem child?_fill (part : Part) (content : List Link) (c : Contents) (slot : ChildSlot) :
    (c.fill part content).child? slot =
      (c.child? slot).map fun old => if part = .child slot then content.headD none else old := by
  cases part with
  | child place => simp [fill, child?_setChild]
  | list place => simp [fill, child?_setList]
  | token => simp [fill]

/-- Writing a part shows at that list and at no other. -/
theorem list?_fill (part : Part) (content : List Link) (c : Contents) (slot : ListSlot) :
    (c.fill part content).list? slot =
      (c.list? slot).map fun old => if part = .list slot then content else old := by
  cases part with
  | child place => simp [fill, list?_setChild]
  | list place => simp [fill, list?_setList]
  | token => simp [fill]

/-- A slot is one place among the links. -/
theorem exists_links_setChild {c : Contents} {slot : ChildSlot} {old : Link}
    (h : c.child? slot = some old) :
    ∃ before after, c.links = before ++ [old] ++ after ∧
      ∀ child, (c.setChild slot child).links = before ++ [child] ++ after := by
  cases c <;> cases slot <;> cases h <;>
    first
      | exact ⟨[], _, rfl, fun _ => rfl⟩
      | exact ⟨[_], _, rfl, fun _ => rfl⟩
      | exact ⟨[_, _], _, rfl, fun _ => rfl⟩
      | exact ⟨_ :: _, [], (List.append_nil _).symm, fun _ => (List.append_nil _).symm⟩

/-- A list is a segment of the links. -/
theorem exists_links_setList {c : Contents} {slot : ListSlot} {old : List Link}
    (h : c.list? slot = some old) :
    ∃ before after, c.links = before ++ old ++ after ∧
      ∀ children, (c.setList slot children).links = before ++ children ++ after := by
  cases c <;> cases slot <;> cases h <;>
    first
      | exact ⟨[], [], (List.append_nil _).symm, fun _ => (List.append_nil _).symm⟩
      | exact ⟨[_], [_], rfl, fun _ => rfl⟩

/-- **A part is a segment of the links, and writing the part replaces the segment.** -/
theorem exists_links_fill {c : Contents} {part : Part} (h : part.owner.admits c.kind) :
    ∃ before after, c.links = before ++ c.occupants part ++ after ∧
      ∀ content, part.Holds content → (c.fill part content).links = before ++ content ++ after := by
  cases part with
  | child slot =>
    rw [Part.owner, ← isSome_child?_iff] at h
    obtain ⟨old, hold⟩ := Option.isSome_iff_exists.mp h
    obtain ⟨before, after, hlinks, hset⟩ := exists_links_setChild hold
    refine ⟨before, after, by simpa [occupants, hold] using hlinks, fun content hcontent => ?_⟩
    obtain ⟨child, rfl⟩ := List.length_eq_one_iff.mp hcontent
    exact hset child
  | list slot =>
    rw [Part.owner, ← isSome_list?_iff] at h
    obtain ⟨old, hold⟩ := Option.isSome_iff_exists.mp h
    obtain ⟨before, after, hlinks, hset⟩ := exists_links_setList hold
    exact ⟨before, after, by simpa [occupants, hold] using hlinks, fun content _ => hset content⟩
  | token =>
    refine ⟨c.links, [], by simp [occupants], ?_⟩
    rintro content rfl
    simp [fill]

/-- A part that was written holds what was written. -/
theorem occupants_fill {c : Contents} {part : Part} {content : List Link}
    (h : part.owner.admits c.kind) (hcontent : part.Holds content) :
    (c.fill part content).occupants part = content := by
  cases part with
  | child slot =>
    rw [Part.owner, ← isSome_child?_iff] at h
    obtain ⟨old, hold⟩ := Option.isSome_iff_exists.mp h
    obtain ⟨child, rfl⟩ := List.length_eq_one_iff.mp hcontent
    simp [occupants, child?_fill, hold]
  | list slot =>
    rw [Part.owner, ← isSome_list?_iff] at h
    obtain ⟨old, hold⟩ := Option.isSome_iff_exists.mp h
    simp [occupants, list?_fill, hold]
  | token => exact hcontent.symm

end Contents

end SyntaxForest
