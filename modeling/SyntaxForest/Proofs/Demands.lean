import Mathlib.Data.List.Nodup
import SyntaxForest.Forest.Edit
import SyntaxForest.Proofs.Linked

/-!
# What edits of children demand

An edit of children is a question to the forest followed by updates.  This module separates the
two: `Edit.demands` is the question, `Edit.perform` the updates, and `run_eq` puts them together.
All demands are made of the forest as it is before the edit, so an edit that is refused has changed
nothing.

`Edit.Legal` says in terms of the trees, without any order of checks, when an edit is in order, and
`demands_eq_ok_iff` that the demands ask for exactly this.

The twenty setters for children are three edits, told apart by the part that they write
(`Edit.part?`): one child into a slot, a list in place of a list, or one child at the end of a list.
-/

namespace SyntaxForest

namespace Editing

variable {α β : Type} {f : Forest}

@[simp] theorem run_ask (question : Forest → Except TreeError α) :
    (ask question).run f = match question f with
      | .ok answer => .ok answer f
      | .error e => .error e f := by
  simp only [ask, EStateM.run_bind, EStateM.run_get]
  cases question f <;> rfl

/-- To ask twice is to ask for both answers at once. -/
theorem ask_bind (first : Forest → Except TreeError α)
    (next : α → Forest → Except TreeError β) :
    ask (fun f => first f >>= fun a => next a f) = ask first >>= fun a => ask (next a) := by
  funext f
  show (ask _).run f = (ask first >>= _).run f
  simp only [run_ask, EStateM.run_bind]
  cases first f <;> rfl

end Editing

namespace Edit

/-! ## The parts of an edit -/

/-- The node that an edit is about. -/
def node : Edit → Link
  | .setChild _ node _ | .setList _ node _ | .append _ node _ | .write _ node | .mark _ node
  | .setRange node _ _ => node

/-- The children that are passed to an edit. -/
def children : Edit → List Link
  | .setChild _ _ child | .append _ _ child => [child]
  | .setList _ _ children => children
  | _ => []

/-- The nodes among the children that are passed. -/
def moved (e : Edit) : List NodeIndex := e.children.filterMap id

/-- The part that an edit of children writes; other edits write none. -/
def part? : Edit → Option Part
  | .setChild slot _ _ => some (.child slot)
  | .setList slot _ _ | .append slot _ _ => some (.list slot)
  | _ => none

/-- What the part is to hold after an edit of children. -/
def content (f : Forest) : Edit → List Link
  | .append slot node child => f.list node slot ++ [child]
  | e => e.children

theorem mem_moved {e : Edit} {x : NodeIndex} : x ∈ e.moved ↔ some x ∈ e.children := by
  simp [moved]

/-! ## Demands first, updates afterwards -/

/-- What an edit of children demands of a forest before it changes anything. -/
def demands (f : Forest) : Edit → Except TreeError Unit
  | .setChild slot node child => do
    let _ ← f.headerOf slot.owner node
    if slot.needsContents then
      let _ ← f.contentsOf slot.owner node
    f.checkChild node child (.child slot) slot.isRequired
  | .setList slot node children => do
    let h ← f.headerOf slot.owner node
    if slot.needsContents then
      let _ ← f.contentsOf slot.owner node
    f.checkList node slot (slot.entryKind? h.kind) [] children
  | .append slot node child => do
    let h ← f.headerOf slot.owner node
    if slot.needsContents then
      let _ ← f.contentsOf slot.owner node
    f.checkAppend node child slot (slot.entryKind? h.kind)
  | _ => pure ()

/-- What an edit of children does once its demands are met. -/
def perform : Edit → Editing Unit
  | .setChild slot node child => do
    Editing.release child
    let c ← Editing.ask (·.contentsOf slot.owner node)
    let old := (c.child? slot).join
    modify (·.setContents node (c.setChild slot child))
    if old ≠ child then modify (·.detach old node)
    modify (·.setParent child node)
  | .setList slot node children => do
    children.forM Editing.release
    let c ← Editing.ask (·.contentsOf slot.owner node)
    let old := (c.list? slot).getD []
    modify (·.setContents node (c.setList slot children))
    old.forM fun entry => do
      if entry ∉ children then modify (·.detach entry node)
    children.forM fun child => modify (·.setParent child node)
  | .append slot node child => do
    Editing.release child
    let c ← Editing.ask (·.contentsOf slot.owner node)
    modify (·.setContents node (c.setList slot ((c.list? slot).getD [] ++ [child])))
    modify (·.setParent child node)
  | e => e.run

/-- **An edit asks all its questions first.** -/
theorem run_eq (e : Edit) : e.run = (do
    Editing.ask (e.demands ·)
    e.perform) := by
  cases e with
  | setChild slot node child =>
    simp only [run, demands, perform, Editing.setChild, Editing.ask_bind, bind_assoc]
    cases slot.needsContents <;>
      simp only [Editing.ask_bind, bind_assoc, if_true, Bool.false_eq_true, if_false]
  | setList slot node children =>
    simp only [run, demands, perform, Editing.setList, Editing.ask_bind, bind_assoc]
    cases slot.needsContents <;>
      simp only [Editing.ask_bind, bind_assoc, if_true, Bool.false_eq_true, if_false]
  | append slot node child =>
    simp only [run, demands, perform, Editing.append, Editing.ask_bind, bind_assoc]
    cases slot.needsContents <;>
      simp only [Editing.ask_bind, bind_assoc, if_true, Bool.false_eq_true, if_false]
  | _ => rfl

/-- An edit whose demands are met does what it does then. -/
theorem run_of_demands_ok {e : Edit} {f : Forest} (h : e.demands f = .ok ()) :
    e.run.run f = e.perform.run f := by
  rw [run_eq, EStateM.run_bind, Editing.run_ask, h]

/-- An edit whose demands are not met changes nothing. -/
theorem run_of_demands_error {e : Edit} {f : Forest} {err : TreeError}
    (h : e.demands f = .error err) : e.run.run f = .error err f := by
  rw [run_eq, EStateM.run_bind, Editing.run_ask, h]

end Edit

/-! ## The single demands -/

/-- Two questions are answered if the first is, and then the second. -/
theorem bind_eq_ok_iff {α β : Type} {x : Except TreeError α} {k : α → Except TreeError β} {b : β} :
    x >>= k = .ok b ↔ ∃ a, x = .ok a ∧ k a = .ok b := by
  cases x <;> simp [bind, Except.bind]

/-- Two demands are met if the first is, and then the second. -/
theorem seq_eq_ok_iff {β : Type} {x : Except TreeError Unit} {k : Unit → Except TreeError β}
    {b : β} : x >>= k = .ok b ↔ x = .ok () ∧ k () = .ok b := by
  rw [bind_eq_ok_iff]
  exact ⟨fun ⟨_, hx, hk⟩ => ⟨hx, hk⟩, fun ⟨hx, hk⟩ => ⟨(), hx, hk⟩⟩

/-- A refusal on a condition passes if the condition fails. -/
theorem ite_throw_eq_ok_iff {p : Prop} [Decidable p] {e : TreeError} :
    (if p then throw e else pure () : Except TreeError Unit) = .ok () ↔ ¬ p := by
  by_cases h : p <;> simp [h, throw, throwThe, MonadExceptOf.throw, pure, Except.pure]

namespace Forest

variable {f : Forest}

theorem header_eq_ok_iff {x : Link} {h : Header} : f.header x = .ok h ↔ f.header? x = some h := by
  unfold header
  split <;> simp [*]

theorem headerOf_eq_ok_iff {expected : Expectation} {x : Link} {h : Header} :
    f.headerOf expected x = .ok h ↔ f.header? x = some h ∧ expected.admits h.kind := by
  unfold headerOf
  cases f.header? x with
  | none => simp
  | some h' =>
    by_cases admitted : expected.admits h'.kind
    · simp only [admitted, if_true, Except.ok.injEq, Option.some.injEq]
      exact ⟨fun e => ⟨e, e ▸ admitted⟩, And.left⟩
    · simp only [admitted, Bool.false_eq_true, if_false, reduceCtorEq, Option.some.injEq,
        false_iff]
      rintro ⟨rfl, h⟩
      exact admitted h

theorem contentsOf_eq_ok_iff {expected : Expectation} {x : Link} {c : Contents} :
    f.contentsOf expected x = .ok c ↔ f.contents? x = some c ∧ expected.admits c.kind := by
  have held {h : Header} (hx : f.header? x = some h) :
      f.contents? x = f.held? h := by simp [contents?, hx]
  rw [contentsOf, bind_eq_ok_iff]
  constructor
  · rintro ⟨h, hh, hc⟩
    obtain ⟨hx, admitted⟩ := headerOf_eq_ok_iff.mp hh
    cases hheld : f.held? h with
    | none => simp [hheld] at hc
    | some c' =>
      obtain rfl : c' = c := by simpa [hheld] using hc
      have hcontents := (held hx).trans hheld
      have kinds := (kind?_of_contents? hcontents).symm.trans (kind?_of_header? hx)
      exact ⟨hcontents, by rwa [Option.some.inj kinds]⟩
  · rintro ⟨hc, admitted⟩
    obtain ⟨h, hx⟩ := exists_header?_of_contains (contains_of_contents? hc)
    have kinds := (kind?_of_contents? hc).symm.trans (kind?_of_header? hx)
    refine ⟨h, headerOf_eq_ok_iff.mpr ⟨hx, by rwa [← Option.some.inj kinds]⟩, ?_⟩
    rw [held hx] at hc
    simp [hc]

/-- Whether a child may stand under a node: it is a node, and neither the node itself nor one of
its ancestors.  No child may stand where none is required. -/
def Admissible (f : Forest) (node : Link) (required : Bool) : Link → Prop
  | none => required = false
  | some c => f.contains (some c) ∧ some c ≠ node ∧ c ∉ f.ancestors node

theorem checkChild_eq_ok_iff {node child : Link} {part : Part} {required : Bool} :
    f.checkChild node child part required = .ok () ↔
      f.contains node ∧ f.Admissible node required child := by
  rw [checkChild, bind_eq_ok_iff]
  simp only [header_eq_ok_iff]
  have known : f.contains node ↔ ∃ h, f.header? node = some h := by
    rw [contains, Option.isSome_iff_exists]
  cases child with
  | none =>
    simp only [ite_throw_eq_ok_iff, Bool.not_eq_true, known, exists_and_right]
    rfl
  | some c =>
    have admissible : (do
        let _ ← f.header (some c)
        if some c = node ∨ c ∈ f.ancestors node then throw (.wouldCreateCycle node (some c))
        else pure () : Except TreeError Unit) = .ok () ↔ f.Admissible node required (some c) := by
      rw [bind_eq_ok_iff]
      simp only [header_eq_ok_iff, ite_throw_eq_ok_iff, not_or, exists_and_right]
      rw [Admissible, contains, Option.isSome_iff_exists]
    simp only [known, exists_and_right]
    exact and_congr_right fun _ => admissible

theorem checkKind_eq_ok_iff {child : Link} {demand : Option Kind} :
    f.checkKind child demand = .ok () ↔ ∀ k ∈ demand, f.kind? child = some k := by
  cases demand with
  | none => simp [checkKind, pure, Except.pure]
  | some k =>
    have passes : f.checkKind child (some k) = .ok () ↔
        ∃ h, f.headerOf (.kind k) child = .ok h := by
      rw [checkKind, bind_eq_ok_iff]
      simp [pure, Except.pure]
    simp only [passes, headerOf_eq_ok_iff, Expectation.admits, beq_iff_eq, Option.mem_def,
      Option.some.injEq, forall_eq', kind?, Option.map_eq_some_iff]

theorem checkAbsent_eq_ok_iff {slot : ListSlot} {child : Link} {entries : List Link} :
    checkAbsent slot child entries = .ok () ↔ child ∉ entries :=
  ite_throw_eq_ok_iff

theorem checkList_eq_ok_iff {node : Link} {slot : ListSlot} {demand : Option Kind}
    {before children : List Link} :
    f.checkList node slot demand before children = .ok () ↔
      (∀ child ∈ children, f.checkChild node child (.list slot) true = .ok () ∧
        (∀ k ∈ demand, f.kind? child = some k) ∧ child ∉ before) ∧ children.Nodup := by
  induction children generalizing before with
  | nil => simp [checkList, pure, Except.pure]
  | cons child rest ih =>
    rw [checkList, seq_eq_ok_iff, seq_eq_ok_iff, seq_eq_ok_iff, checkKind_eq_ok_iff,
      checkAbsent_eq_ok_iff, ih, List.forall_mem_cons, List.nodup_cons]
    simp only [List.mem_cons, not_or]
    constructor
    · rintro ⟨hchild, hkind, habsent, hrest, hnodup⟩
      refine ⟨⟨⟨hchild, hkind, habsent⟩, fun c hc => ?_⟩, fun hmem => ?_, hnodup⟩
      · exact ⟨(hrest c hc).1, (hrest c hc).2.1, (hrest c hc).2.2.2⟩
      · exact (hrest child hmem).2.2.1 rfl
    · rintro ⟨⟨⟨hchild, hkind, habsent⟩, hrest⟩, hfirst, hnodup⟩
      refine ⟨hchild, hkind, habsent, fun c hc => ?_, hnodup⟩
      obtain ⟨hc₁, hc₂, hc₃⟩ := hrest c hc
      exact ⟨hc₁, hc₂, fun e => hfirst (e ▸ hc), hc₃⟩

theorem checkAppend_eq_ok_iff {node child : Link} {slot : ListSlot} {demand : Option Kind} :
    f.checkAppend node child slot demand = .ok () ↔
      f.checkChild node child (.list slot) true = .ok () ∧
        (∀ k ∈ demand, f.kind? child = some k) ∧ child ∉ f.list node slot := by
  cases slot <;>
    simp only [checkAppend, seq_eq_ok_iff, checkKind_eq_ok_iff, checkAbsent_eq_ok_iff] <;>
    tauto

end Forest

/-! ## Legal edits -/

namespace Edit

/-- When an edit of a part is in order. -/
structure Legal (f : Forest) (e : Edit) (part : Part) : Prop where
  /-- The node is there and has the part. -/
  node : ∃ k, f.kind? e.node = some k ∧ part.owner.admits k
  /-- Children are nodes; only three slots may be emptied. -/
  nodes : ∀ c ∈ e.children, f.contains c ∨ c = none ∧
    part ∈ [.child .elsePart, .child .finallyBlock, .child .guard]
  /-- No child comes to stand below itself. -/
  acyclic : ∀ c, some c ∈ e.children → some c ≠ e.node ∧ c ∉ f.ancestors e.node
  properties : f.kind? e.node = some .objectLiteral →
    ∀ c ∈ e.children, f.kind? c = some .objectProperty
  handlers : part = .list .catchClauses → ∀ c ∈ e.children, f.kind? c = some .catchClause
  nodup : e.children.Nodup
  /-- What is added to a list is not in it yet. -/
  absent : ∀ slot node child, e = .append slot node child → child ∉ f.list node slot

section

variable {f : Forest}

/-- A kind that has a part is not bare. -/
theorem isBare_of_admits {part : Part} {k : Kind} (h : part.owner.admits k) :
    k.isBare = false := by
  cases part with
  | child slot => cases slot <;> cases k <;> first | rfl | cases h
  | list slot => cases slot <;> cases k <;> first | rfl | cases h
  | token => cases k <;> first | rfl | cases h

/-- A node of a kind that has the part has contents. -/
theorem exists_contentsOf (hf : f.Intact) {part : Part} {node : Link} {h : Header}
    (hh : f.header? node = some h) (admitted : part.owner.admits h.kind) :
    ∃ c, f.contentsOf part.owner node = .ok c := by
  obtain ⟨c, hc, hkind⟩ :=
    hf.exists_contents? (Forest.kind?_of_header? hh) (isBare_of_admits admitted)
  exact ⟨c, Forest.contentsOf_eq_ok_iff.mpr ⟨hc, hkind ▸ admitted⟩⟩

/-- To have the contents of a node, or not to have them yet, is the same to a demand. -/
theorem holder_eq_ok_iff (hf : f.Intact) (part : Part) (rest : Kind → Except TreeError Unit)
    {node : Link} {early : Bool} :
    (do
      let h ← f.headerOf part.owner node
      if early then
        let _ ← f.contentsOf part.owner node
      rest h.kind) = .ok () ↔
      ∃ k, f.kind? node = some k ∧ part.owner.admits k ∧ rest k = .ok () := by
  rw [bind_eq_ok_iff]
  constructor
  · rintro ⟨h, hh, hrest⟩
    obtain ⟨hh, admitted⟩ := Forest.headerOf_eq_ok_iff.mp hh
    refine ⟨h.kind, Forest.kind?_of_header? hh, admitted, ?_⟩
    cases early with
    | false => exact hrest
    | true =>
      obtain ⟨c, hc⟩ := exists_contentsOf hf hh admitted
      rwa [if_pos rfl, hc] at hrest
  · rintro ⟨k, hk, admitted, hrest⟩
    obtain ⟨h, hh, rfl⟩ := Option.map_eq_some_iff.mp hk
    refine ⟨h, Forest.headerOf_eq_ok_iff.mpr ⟨hh, admitted⟩, ?_⟩
    cases early with
    | false => exact hrest
    | true =>
      obtain ⟨c, hc⟩ := exists_contentsOf hf hh admitted
      rwa [if_pos rfl, hc]

/-- What is demanded of a single child, clause by clause. -/
theorem admissible_iff (part : Part) {node child : Link} {required : Bool}
    (h : required = false ↔ part ∈ [.child .elsePart, .child .finallyBlock, .child .guard]) :
    f.Admissible node required child ↔
      (f.contains child ∨ child = none ∧
        part ∈ [.child .elsePart, .child .finallyBlock, .child .guard]) ∧
      ∀ c, some c = child → some c ≠ node ∧ c ∉ f.ancestors node := by
  cases child with
  | none => simp [Forest.Admissible, h]
  | some c => simp [Forest.Admissible]

/-- What a list demands of the kind of an entry, clause by clause. -/
theorem entryKind?_iff {slot : ListSlot} {k : Kind} {child : Link}
    (h : slot.owner.admits k) :
    (∀ demand ∈ slot.entryKind? k, f.kind? child = some demand) ↔
      (k = .objectLiteral → f.kind? child = some .objectProperty) ∧
        (slot = .catchClauses → f.kind? child = some .catchClause) := by
  cases slot <;> cases k <;> simp_all [ListSlot.owner, Expectation.admits, Kind.isContainer,
    ListSlot.entryKind?]

/-- What is demanded of a single entry, clause by clause. -/
theorem entry_eq_ok_iff {slot : ListSlot} {node child : Link} {k : Kind}
    (hk : f.kind? node = some k) (h : slot.owner.admits k) :
    f.checkChild node child (.list slot) true = .ok () ∧
        (∀ demand ∈ slot.entryKind? k, f.kind? child = some demand) ↔
      (f.contains child ∨ child = none ∧
        .list slot ∈ [Part.child .elsePart, .child .finallyBlock, .child .guard]) ∧
      (∀ c, some c = child → some c ≠ node ∧ c ∉ f.ancestors node) ∧
      (k = .objectLiteral → f.kind? child = some .objectProperty) ∧
        (slot = .catchClauses → f.kind? child = some .catchClause) := by
  rw [Forest.checkChild_eq_ok_iff, admissible_iff (.list slot) (by simp),
    entryKind?_iff h, and_assoc, and_assoc, and_iff_right (Forest.contains_of_kind? hk)]

/-- What is demanded before a slot is filled. -/
theorem demands_setChild_eq_ok_iff (hf : f.Intact) (slot : ChildSlot) (node child : Link) :
    (setChild slot node child).demands f = .ok () ↔
      (setChild slot node child).Legal f (.child slot) := by
  have asked : (setChild slot node child).demands f = .ok () ↔ _ :=
    holder_eq_ok_iff hf (.child slot) fun _ => _
  rw [asked, Forest.checkChild_eq_ok_iff,
    admissible_iff (.child slot) (by cases slot <;> simp [ChildSlot.isRequired])]
  constructor
  · rintro ⟨k, hk, admitted, -, nodes, acyclic⟩
    refine ⟨⟨k, hk, admitted⟩, ?_, ?_, ?_, ?_, List.nodup_singleton child, ?_⟩
    · simpa [children] using nodes
    · simpa [children, Edit.node] using acyclic
    · intro hobject
      cases hk.symm.trans hobject
      cases slot <;> cases admitted
    · rintro ⟨⟩
    · rintro slot' node' child' ⟨⟩
  · rintro ⟨⟨k, hk, admitted⟩, nodes, acyclic, -, -, -, -⟩
    refine ⟨k, hk, admitted, Forest.contains_of_kind? hk, ?_, ?_⟩
    · simpa [children] using nodes
    · simpa [children, Edit.node] using acyclic

/-- What is demanded before a list is replaced. -/
theorem demands_setList_eq_ok_iff (hf : f.Intact) (slot : ListSlot) (node : Link)
    (children : List Link) :
    (setList slot node children).demands f = .ok () ↔
      (setList slot node children).Legal f (.list slot) := by
  have asked : (setList slot node children).demands f = .ok () ↔ _ :=
    holder_eq_ok_iff hf (.list slot)
      fun k => f.checkList node slot (slot.entryKind? k) [] children
  rw [asked]
  constructor
  · rintro ⟨k, hk, admitted, hrest⟩
    rw [Forest.checkList_eq_ok_iff] at hrest
    obtain ⟨hrest, nodup⟩ := hrest
    have entries c (hc : c ∈ children) :=
      (entry_eq_ok_iff hk admitted).mp ⟨(hrest c hc).1, (hrest c hc).2.1⟩
    refine ⟨⟨k, hk, admitted⟩, fun c hc => (entries c hc).1, ?_, ?_, ?_, nodup, ?_⟩
    · intro c hc
      exact (entries _ hc).2.1 c rfl
    · intro hobject c hc
      cases hk.symm.trans hobject
      exact (entries c hc).2.2.1 rfl
    · rintro ⟨⟩ c hc
      exact (entries c hc).2.2.2 rfl
    · rintro slot' node' child' ⟨⟩
  · rintro ⟨⟨k, hk, admitted⟩, nodes, acyclic, properties, handlers, nodup, -⟩
    refine ⟨k, hk, admitted, Forest.checkList_eq_ok_iff.mpr ⟨fun c hc => ?_, nodup⟩⟩
    obtain ⟨hchild, hkind⟩ := (entry_eq_ok_iff hk admitted).mpr
      ⟨nodes c hc, fun x hx => acyclic x (hx ▸ hc), fun h => properties (h ▸ hk) c hc,
        fun h => handlers (congrArg Part.list h) c hc⟩
    exact ⟨hchild, hkind, List.not_mem_nil⟩

/-- What is demanded before a list gets one more entry. -/
theorem demands_append_eq_ok_iff (hf : f.Intact) (slot : ListSlot) (node child : Link) :
    (append slot node child).demands f = .ok () ↔
      (append slot node child).Legal f (.list slot) := by
  have asked : (append slot node child).demands f = .ok () ↔ _ :=
    holder_eq_ok_iff hf (.list slot)
      fun k => f.checkAppend node child slot (slot.entryKind? k)
  rw [asked]
  constructor
  · rintro ⟨k, hk, admitted, hrest⟩
    rw [Forest.checkAppend_eq_ok_iff, ← and_assoc, entry_eq_ok_iff hk admitted] at hrest
    obtain ⟨⟨nodes, acyclic, properties, handlers⟩, absent⟩ := hrest
    refine ⟨⟨k, hk, admitted⟩, ?_, ?_, ?_, ?_, List.nodup_singleton child, ?_⟩
    · simpa [children] using nodes
    · simpa [children, Edit.node] using acyclic
    · intro hobject c hc
      cases hk.symm.trans hobject
      exact List.mem_singleton.mp hc ▸ properties rfl
    · rintro ⟨⟩ c hc
      exact List.mem_singleton.mp hc ▸ handlers rfl
    · rintro _ _ _ ⟨⟩
      exact absent
  · rintro ⟨⟨k, (hk : f.kind? node = some k), admitted⟩, nodes, acyclic, properties, handlers, -,
      absent⟩
    refine ⟨k, hk, admitted, ?_⟩
    rw [Forest.checkAppend_eq_ok_iff, ← and_assoc, entry_eq_ok_iff hk admitted]
    have here : child ∈ (append slot node child).children := List.mem_singleton_self child
    exact ⟨⟨nodes child here, fun x hx => acyclic x (hx ▸ here),
      fun h => properties (h ▸ hk) child here,
      fun h => handlers (congrArg Part.list h) child here⟩, absent slot node child rfl⟩

/-- **The demands of an edit ask whether it is legal.** -/
theorem demands_eq_ok_iff (hf : f.Intact) {e : Edit} {part : Part} (hpart : e.part? = some part) :
    e.demands f = .ok () ↔ e.Legal f part := by
  cases e with
  | setChild slot node child =>
    obtain rfl := Option.some.inj hpart
    exact demands_setChild_eq_ok_iff hf slot node child
  | setList slot node children =>
    obtain rfl := Option.some.inj hpart
    exact demands_setList_eq_ok_iff hf slot node children
  | append slot node child =>
    obtain rfl := Option.some.inj hpart
    exact demands_append_eq_ok_iff hf slot node child
  | write _ _ | mark _ _ | setRange _ _ _ => cases hpart

namespace Legal

variable {e : Edit} {part : Part} (legal : e.Legal f part)
include legal

theorem contains_node : f.contains e.node := by
  obtain ⟨k, hk, -⟩ := legal.node
  exact Forest.contains_of_kind? hk

/-- The node of a legal edit has contents, and these have the part. -/
theorem exists_contents (hf : f.Intact) :
    ∃ c, f.contents? e.node = some c ∧ part.owner.admits c.kind := by
  obtain ⟨k, hk, admitted⟩ := legal.node
  obtain ⟨c, hc, rfl⟩ := hf.exists_contents? hk (isBare_of_admits admitted)
  exact ⟨c, hc, admitted⟩

end Legal

end

end Edit

end SyntaxForest
