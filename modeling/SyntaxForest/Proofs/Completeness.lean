import SyntaxForest.Proofs.Hinging
import SyntaxForest.Proofs.Printing
import SyntaxForest.Proofs.Recording
import SyntaxForest.Proofs.Slots

/-!
# When printing and recording succeed

A tree that is not too high is printed exactly if all its nodes are complete: no required slot is
empty, and no number is without its token.  Neither the depth nor the options have a say.  A record
follows only the first handler of a `try`, so it needs this of fewer nodes; but a `try` without a
handler has no record, although it has a text.

Printing and recording look at the slots of a node in different orders, and ask for its children in
different orders, so that they may fail with different errors.  What their recipes hinge on is the
same condition for both (`Printer.hinges_ofContents`, `Interchange.hinges_ofContents`).
-/

namespace SyntaxForest

/-! ## Complete nodes -/

namespace Contents

/-- Whether the contents are those of a number without a token. -/
def lacksToken : Contents → Bool
  | .numberLiteral c => c.token.isNone
  | _ => false

/-- Nothing is missing: every required slot is filled, and a number has its token. -/
structure Complete (c : Contents) : Prop where
  filled : ∀ slot, slot.isRequired → c.child? slot ≠ some none
  token : ¬ c.lacksToken

/-- If the contents are those of a `try`, there is a handler. -/
def Handled (c : Contents) : Prop := c.list? .catchClauses ≠ some []

/-- Only finitely many slots have to be looked at. -/
theorem complete_iff_forall_mem (c : Contents) : c.Complete ↔
    (∀ slot ∈ ChildSlot.all, slot.isRequired → c.child? slot ≠ some none) ∧ ¬ c.lacksToken :=
  ⟨fun h => ⟨fun slot _ => h.filled slot, h.token⟩,
    fun h => ⟨fun slot => h.1 slot slot.mem_all, h.2⟩⟩

instance (c : Contents) : Decidable c.Complete :=
  decidable_of_iff _ (complete_iff_forall_mem c).symm

instance (c : Contents) : Decidable c.Handled := inferInstanceAs (Decidable (_ ≠ _))

/-- What completeness comes to for each kind. -/
theorem complete_iff (c : Contents) : c.Complete ↔ match c with
    | .numberLiteral c => c.token.isSome
    | .objectProperty c => c.left.isSome ∧ c.right.isSome
    | .expressionStatement c => c.expression.isSome
    | .ifStatement c => c.condition.isSome ∧ c.thenPart.isSome
    | .tryStatement c => c.tryBlock.isSome
    | .catchClause c => c.varName.isSome ∧ c.body.isSome
    | .forInLoop c => c.loop.body.isSome ∧ c.iterator.isSome ∧ c.iteratedObject.isSome
    | .doLoop c => c.condition.isSome ∧ c.loop.body.isSome
    | .whileLoop c => c.condition.isSome ∧ c.loop.body.isSome
    | _ => True := by
  rw [complete_iff_forall_mem]
  cases c <;>
    simp [ChildSlot.all, ChildSlot.isRequired, child?, lacksToken, Option.ne_none_iff_isSome]

theorem handled_iff (c : Contents) : c.Handled ↔ match c with
    | .tryStatement c => c.catchClauses ≠ []
    | _ => True := by
  cases c <;> simp [Handled, list?]

end Contents

namespace Forest

variable {f : Forest}

/-- Nothing is missing at a node. -/
def Complete (f : Forest) (x : NodeIndex) : Prop := ∀ c, f.contents? (some x) = some c → c.Complete

/-- If the node is a `try`, it has a handler. -/
def Handled (f : Forest) (x : NodeIndex) : Prop := ∀ c, f.contents? (some x) = some c → c.Handled

instance (f : Forest) (x : NodeIndex) : Decidable (f.Complete x) :=
  inferInstanceAs (Decidable (∀ c ∈ f.contents? (some x), c.Complete))

instance (f : Forest) (x : NodeIndex) : Decidable (f.Handled x) :=
  inferInstanceAs (Decidable (∀ c ∈ f.contents? (some x), c.Handled))

/-- The children of a node, but of the handlers of a `try` only the first. -/
def followed (f : Forest) (x : NodeIndex) : List NodeIndex :=
  (f.below x).filter fun y => some y ∉ (f.list (some x) .catchClauses).tail

/-- The children whose records stand in the record of a node. -/
def recorded (f : Forest) (x : NodeIndex) : List NodeIndex :=
  (((f.contents? (some x)).map Interchange.embedded).getD []).filterMap id

/-- What can be reached from a node if only the first handler of each `try` is followed. -/
def Follows (f : Forest) (x : Link) (y : NodeIndex) : Prop :=
  ∃ root, x = some root ∧ Relation.ReflTransGen (fun a b => b ∈ f.followed a) root y

end Forest

open Recipe

/-! ## Texts -/

namespace Printer

variable (f : Forest) (o : PrinterOptions)

theorem hinges_elements (items : List Link) : (elements f items).Hinges (none ∉ items) :=
  (hinges_takeAll items).bind_pure fun _ => .pure _

theorem hinges_loopBody (kind : Kind) (body : Link) :
    (loopBody f o kind body).Hinges body.isSome :=
  (hinges_takeRequired kind .body body).bind_pure fun _ => .pure _

/-- **The text of a node hinges on completeness.** -/
theorem hinges_ofContents (c : Contents) (depth : Nat)
    (entries : ∀ slot items, c.list? slot = some items → none ∉ items) :
    (ofContents f o c depth).Hinges c.Complete := by
  refine Hinges.congr ?_ c.complete_iff.symm
  cases c with
  | name | stringLiteral | keywordLiteral => exact .pure _
  | numberLiteral c =>
    obtain ⟨token, value⟩ := c
    cases token with
    | none => exact Bool.false_ne_true
    | some token => exact (Hinges.pure _).congr (iff_of_true trivial rfl)
  | arrayLiteral c | objectLiteral c =>
    refine Hinges.congr ((hinges_elements f c.elements).bind_pure fun _ => .pure _) ?_
    exact iff_of_true (entries .elements _ rfl) trivial
  | block c =>
    refine Hinges.congr ((hinges_takeAll c.statements).bind_pure fun _ => .pure _) ?_
    exact iff_of_true (entries .statements _ rfl) trivial
  | objectProperty c =>
    refine Hinges.congr ((hinges_require ..).bind fun _ => (hinges_require ..).bind fun _ =>
      (hinges_take _).bind fun _ => (hinges_take _).bind fun _ => .pure _) ?_
    tauto
  | expressionStatement c => exact (hinges_takeRequired ..).bind_pure fun _ => .pure _
  | ifStatement c =>
    refine Hinges.congr ((hinges_require ..).bind fun _ => (hinges_require ..).bind fun _ =>
      (hinges_take _).bind fun _ => (hinges_take _).bind fun _ =>
        .optional (.pure _) ((hinges_take _).bind fun _ => .pure _)) ?_
    tauto
  | tryStatement c =>
    refine Hinges.congr ((hinges_takeRequired ..).bind fun _ => (hinges_takeAll _).bind fun _ =>
      .optional (.pure _) ((hinges_take _).bind fun _ => .pure _)) ?_
    have known := entries .catchClauses _ rfl
    tauto
  | catchClause c =>
    refine Hinges.congr ((hinges_require ..).bind fun _ => (hinges_require ..).bind fun _ =>
      (hinges_take _).bind fun _ => .optional
        (.pure_bind ((hinges_take _).bind_pure fun _ => .pure _))
        ((hinges_take _).bind fun _ =>
          .pure_bind ((hinges_take _).bind_pure fun _ => .pure _))) ?_
    tauto
  | forInLoop c =>
    refine Hinges.congr ((hinges_require ..).bind fun _ => (hinges_require ..).bind fun _ =>
      (hinges_take _).bind fun _ => (hinges_take _).bind fun _ =>
        (hinges_loopBody ..).bind_pure fun _ => .pure _) ?_
    tauto
  | doLoop c =>
    refine Hinges.congr ((hinges_require ..).bind fun _ => (hinges_require ..).bind fun _ =>
      (hinges_take _).bind fun _ => (hinges_take _).bind fun _ => .pure _) ?_
    tauto
  | whileLoop c =>
    exact (hinges_takeRequired ..).bind fun _ => (hinges_loopBody ..).bind_pure fun _ => .pure _

/-- A node of a kind that has no contents lacks nothing. -/
theorem hinges_ofBare {kind : Kind} (bare : kind.isBare) (depth : Nat) :
    (ofBare o kind depth).Hinges True := by
  cases kind <;> first | exact .pure _ | cases bare

end Printer

/-! ## Records -/

namespace Interchange

theorem hinges_optional (child : Link) : (optional child).Hinges True :=
  .optional (.pure _) ((hinges_take child).congr (and_iff_left trivial).symm)

theorem hinges_array (children : List Link) : (array children).Hinges (none ∉ children) :=
  (hinges_takeAll children).bind_pure fun _ => .pure _

/-- **The record of a node hinges on completeness, and on a handler if there have to be some.** -/
theorem hinges_ofContents (c : Contents)
    (entries : ∀ slot items, c.list? slot = some items → none ∉ items) :
    (ofContents c).Hinges (c.Complete ∧ c.Handled) := by
  refine Hinges.congr ?_ (and_congr c.complete_iff c.handled_iff).symm
  cases c with
  | name | stringLiteral | keywordLiteral => exact (Hinges.pure _).congr (and_true True).symm.to_iff
  | numberLiteral c =>
    obtain ⟨token, value⟩ := c
    cases token with
    | none => exact fun complete => Bool.false_ne_true complete.1
    | some token => exact (Hinges.pure _).congr (iff_of_true trivial ⟨rfl, trivial⟩)
  | arrayLiteral c | objectLiteral c =>
    refine Hinges.congr ((hinges_array c.elements).bind_pure fun _ => .pure _) ?_
    exact iff_of_true (entries .elements _ rfl) ⟨trivial, trivial⟩
  | block c =>
    refine Hinges.congr ((hinges_array c.statements).bind_pure fun _ => .pure _) ?_
    exact iff_of_true (entries .statements _ rfl) ⟨trivial, trivial⟩
  | objectProperty c =>
    refine Hinges.congr ((hinges_takeRequired ..).bind fun _ =>
      (hinges_takeRequired ..).bind fun _ => .pure _) ?_
    tauto
  | expressionStatement c =>
    exact (hinges_takeRequired ..).bind fun _ => .pure _
  | ifStatement c =>
    refine Hinges.congr ((hinges_takeRequired ..).bind fun _ =>
      (hinges_takeRequired ..).bind fun _ => (hinges_optional _).bind fun _ => .pure _) ?_
    tauto
  | tryStatement c =>
    obtain ⟨tryBlock, catchClauses, finallyBlock, finallyPosition⟩ := c
    cases catchClauses with
    | nil => exact fun complete => complete.2 rfl
    | cons first rest =>
      have known : first ≠ none := fun empty =>
        entries .catchClauses _ rfl (empty ▸ List.mem_cons_self)
      refine Hinges.congr ((hinges_takeRequired ..).bind fun _ => (hinges_take _).bind fun _ =>
        (hinges_optional _).bind fun _ => .pure _) ?_
      have handled : first :: rest ≠ [] := List.cons_ne_nil first rest
      rw [Option.ne_none_iff_isSome] at known
      tauto
  | catchClause c =>
    refine Hinges.congr ((hinges_takeRequired ..).bind fun _ => (hinges_optional _).bind fun _ =>
      (hinges_takeRequired ..).bind fun _ => .pure _) ?_
    tauto
  | forInLoop c =>
    refine Hinges.congr ((hinges_takeRequired ..).bind fun _ =>
      (hinges_takeRequired ..).bind fun _ => (hinges_takeRequired ..).bind fun _ => .pure _) ?_
    tauto
  | doLoop c | whileLoop c =>
    refine Hinges.congr ((hinges_takeRequired ..).bind fun _ =>
      (hinges_takeRequired ..).bind fun _ => .pure _) ?_
    tauto

theorem hinges_ofBare {kind : Kind} (bare : kind.isBare) : (ofBare kind).Hinges True := by
  cases kind <;> first | exact .pure _ | cases bare

end Interchange

/-! ## Trees -/

namespace Forest

variable {f : Forest}

namespace Linked

variable (hf : f.Linked)
include hf

theorem entries_of_contents? {x : Link} {c : Contents} (hc : f.contents? x = some c)
    (slot : ListSlot) (items : List Link) (hitems : c.list? slot = some items) : none ∉ items := by
  have entries := hf.none_notMem_list x slot
  rwa [list, hc, Option.bind_some, hitems] at entries

theorem isBare_of_not_held {x : Link} {h : Header} (hh : f.header? x = some h)
    (empty : f.held? h = none) : h.kind.isBare := by
  have held := hf.intact.isSome_contents? hh
  rw [contents?, hh, Option.bind_some, empty] at held
  simpa using held

theorem hinges_text (o : PrinterOptions) (job : PrintJob) (hx : f.contains (some job.node)) :
    (Printer.recipe f o job).Hinges (f.Complete job.node) := by
  obtain ⟨h, hh⟩ := exists_header?_of_contains hx
  have contents : f.contents? (some job.node) = f.held? h := by rw [contents?, hh, Option.bind_some]
  rw [Printer.recipe, hh, Complete, contents]
  dsimp only
  cases held : f.held? h with
  | some c =>
    have own := Printer.hinges_ofContents f o c job.depth
      (hf.entries_of_contents? (contents.trans held))
    refine own.congr ?_
    simp
  | none =>
    refine (Printer.hinges_ofBare o (hf.isBare_of_not_held hh held) job.depth).congr ?_
    simp

theorem hinges_record (x : NodeIndex) (hx : f.contains (some x)) :
    (Interchange.recipe f x).Hinges (f.Complete x ∧ f.Handled x) := by
  obtain ⟨h, hh⟩ := exists_header?_of_contains hx
  have contents : f.contents? (some x) = f.held? h := by rw [contents?, hh, Option.bind_some]
  rw [Interchange.recipe, hh, Complete, Handled, contents]
  dsimp only
  cases held : f.held? h with
  | some c =>
    have own := Interchange.hinges_ofContents c (hf.entries_of_contents? (contents.trans held))
    refine (own.bind_pure fun _ => .pure _).congr ?_
    simp
  | none =>
    have own := Interchange.hinges_ofBare (hf.isBare_of_not_held hh held)
    refine (own.bind_pure fun _ => .pure _).congr ?_
    simp

/-! ## What a record follows -/

/-- The children whose records stand in the record of a node are those that are followed. -/
theorem mem_recorded_iff {x y : NodeIndex} : y ∈ f.recorded x ↔ y ∈ f.followed x := by
  have nodup : (f.children (some x)).Nodup := hf.nodup_children (some x)
  rw [followed, List.mem_filter, decide_eq_true_iff, below, recorded, list]
  cases hc : f.contents? (some x) with
  | none => simp [children, hc]
  | some c =>
  rw [children_of_contents? hc] at nodup ⊢
  rw [Option.map_some, Option.getD_some, Option.bind_some]
  cases c with
  | tryStatement c =>
    obtain ⟨tryBlock, catchClauses, finallyBlock, finallyPosition⟩ := c
    cases catchClauses with
    | nil => simp [Contents.children, Contents.links, Contents.list?, Interchange.embedded]
    | cons first rest =>
      simp only [Contents.children, Contents.links, List.cons_append, filterMap_cons_toList,
        List.filterMap_append, List.filterMap_nil, List.append_nil, List.nodup_append,
        Contents.list?, Interchange.embedded, Option.getD_some, List.head?_cons, List.tail_cons,
        Option.join_some] at nodup ⊢
      simp only [List.mem_append, Option.mem_toList, List.mem_filterMap, id, exists_eq_right]
        at nodup ⊢
      obtain ⟨-, ⟨-, ⟨-, -, last⟩, handler⟩, block⟩ := nodup
      constructor
      · rintro (h | h | h)
        · exact ⟨.inl h, fun again => block y h y (.inr (.inl again)) rfl⟩
        · exact ⟨.inr (.inl h), fun again => handler y h y (.inl again) rfl⟩
        · exact ⟨.inr (.inr (.inr h)), fun again => last y again y h rfl⟩
      · tauto
  | _ => simp [Contents.children, Contents.links, Contents.list?, Interchange.embedded]

/-! ## When there is a text, and when there is a record -/

/-- **There is a text exactly of the trees that are complete and not too high.** -/
theorem print_succeeds_iff (o : PrinterOptions) (x : Link) (depth : Nat) :
    (∃ text, f.print o x depth = .ok text) ↔
      f.contains x ∧ f.height x ≤ maxHeight ∧ ∀ y ∈ f.preorder x, f.Complete y := by
  rw [print_eq, (Printer.follows f o).succeeds_iff (Printer.thorough f o) hf (⟨·, depth⟩) f.below
    f.Complete (fun _ => rfl) ?refused ?parts (hf.hinges_text o)]
  case refused =>
    intro job hx
    exact ⟨_, Printer.parts_error (header?_of_not_contains hx)⟩
  case parts =>
    intro job hx
    obtain ⟨h, hh⟩ := exists_header?_of_contains hx
    exact ⟨_, Printer.parts_eq hh, Printer.node_parts f (Printer.parts_eq hh)⟩
  refine and_congr_right fun hx => and_congr_right fun _ => ?_
  cases x with
  | none => cases hx
  | some x => simp [hf.mem_preorder_iff hx]

/-- **There is a record exactly of the trees that are not too high and complete as far as they are
followed, with a handler in each `try`.** -/
theorem record_succeeds_iff (x : Link) :
    (∃ record, f.record x = .ok record) ↔ f.contains x ∧ f.height x ≤ maxHeight ∧
      ∀ y, f.Follows x y → f.Complete y ∧ f.Handled y := by
  rw [record_eq, (Interchange.follows f).succeeds_iff (Interchange.thorough f) hf id f.recorded
    (fun y => f.Complete y ∧ f.Handled y) (fun _ => rfl) ?refused ?parts hf.hinges_record]
  case refused =>
    intro x hx
    exact ⟨_, Interchange.parts_error (header?_of_not_contains hx)⟩
  case parts =>
    intro x hx
    obtain ⟨h, hh⟩ := exists_header?_of_contains hx
    refine ⟨_, Interchange.parts_eq hh, ?_⟩
    show List.map id _ = f.recorded x
    rw [List.map_id, recorded, contents?, show f.header? (some x) = some h from hh,
      Option.bind_some]
  have same : (fun a b => b ∈ f.recorded a) = fun a b => b ∈ f.followed a :=
    funext fun a => funext fun b => propext hf.mem_recorded_iff
  refine and_congr_right fun _ => and_congr_right fun _ => ?_
  rw [same]
  constructor
  · rintro all y ⟨root, hx, path⟩
    exact all root hx y path
  · intro all root hx y path
    exact all y ⟨root, hx, path⟩

/-- What is followed is in the tree. -/
theorem mem_preorder_of_follows {x : Link} (hx : f.contains x) {y : NodeIndex}
    (h : f.Follows x y) : y ∈ f.preorder x := by
  obtain ⟨root, rfl, path⟩ := h
  rw [hf.mem_preorder_iff hx]
  exact Relation.ReflTransGen.mono (fun a b hb => (List.mem_filter.mp hb).1) root y path

end Linked

end Forest

/-- **When printing and recording succeed.**  There is a text exactly of a node whose tree is not
too high and complete everywhere, at every depth and with every option alike.  There is a record
exactly of a node whose tree is not too high, and which is complete wherever the record goes, with a
handler in each `try` there.  So what has a text has a record if no `try` in it lacks handlers. -/
theorem Reached.text_and_record_iff {f : Forest} {loose : List NodeIndex} (h : Reached f loose) :
    (∀ o x depth, (∃ text, f.print o x depth = .ok text) ↔
      f.contains x ∧ f.height x ≤ Forest.maxHeight ∧ ∀ y ∈ f.preorder x, f.Complete y) ∧
    (∀ x, (∃ record, f.record x = .ok record) ↔
      f.contains x ∧ f.height x ≤ Forest.maxHeight ∧
        ∀ y, f.Follows x y → f.Complete y ∧ f.Handled y) ∧
    (∀ o x depth, (∃ text, f.print o x depth = .ok text) → (∀ y ∈ f.preorder x, f.Handled y) →
      ∃ record, f.record x = .ok record) ∧
    ∀ o o' x depth depth', (∃ text, f.print o x depth = .ok text) →
      ∃ text, f.print o' x depth' = .ok text := by
  have hf := h.tended.linked
  refine ⟨hf.print_succeeds_iff, hf.record_succeeds_iff, ?_, ?_⟩
  · intro o x depth printed handled
    obtain ⟨hx, height, complete⟩ := (hf.print_succeeds_iff o x depth).mp printed
    refine (hf.record_succeeds_iff x).mpr ⟨hx, height, fun y follows => ?_⟩
    have listed := hf.mem_preorder_of_follows hx follows
    exact ⟨complete y listed, handled y listed⟩
  · intro o o' x depth depth' printed
    exact (hf.print_succeeds_iff o' x depth').mpr ((hf.print_succeeds_iff o x depth).mp printed)

/-- The block has neither a text nor a record while the loop in it has no body.  Once it has one,
the block has a text at every depth, and so it has a record. -/
theorem text_and_record_nested :
    (¬ ∃ text, (Command.perform Command.nested).1.print {} (some 0) 0 = .ok text) ∧
      (¬ ∃ record, (Command.perform Command.nested).1.record (some 0) = .ok record) ∧
      (∀ depth, ∃ text, (Command.perform Command.finished).1.print {} (some 0) depth = .ok text) ∧
      ∃ record, (Command.perform Command.finished).1.record (some 0) = .ok record := by
  obtain ⟨texts, records, -, -⟩ := Reached.text_and_record_iff (reached_perform Command.nested)
  obtain ⟨texts', -, recorded, everywhere⟩ :=
    Reached.text_and_record_iff (reached_perform Command.finished)
  have printed : ∃ text, (Command.perform Command.finished).1.print {} (some 0) 0 = .ok text :=
    (texts' {} (some 0) 0).mpr ⟨by decide +kernel, by decide +kernel, by decide +kernel⟩
  have incomplete : ¬ (Command.perform Command.nested).1.Complete 1 := by decide +kernel
  refine ⟨?_, ?_, fun depth => everywhere {} {} (some 0) 0 depth printed,
    recorded {} (some 0) 0 printed (by decide +kernel)⟩
  · rw [texts]
    rintro ⟨-, -, complete⟩
    exact incomplete (complete 1 (by decide +kernel))
  · rw [records]
    rintro ⟨-, -, complete⟩
    have below : 1 ∈ (Command.perform Command.nested).1.followed 0 := by decide +kernel
    exact incomplete (complete 1 ⟨0, rfl, .single below⟩).1

/-- A `try` without a handler has a text and no record. -/
example : ∃ f, f = (Command.perform [(1, .construct (.node .tryStatement 0 0)),
      (2, .construct (.node .block 0 0)), (0, .edit (.setChild .tryBlock (some 0) (some 1)))]).1 ∧
    (f.toSource (some 0)).isOk ∧ ¬ (f.record (some 0)).isOk :=
  ⟨_, rfl, by decide +kernel, by decide +kernel⟩

end SyntaxForest
