import SyntaxForest.Proofs.Cloned

/-!
# Forests without marks and positions

A plain forest has the trees and the values of another one, and nothing of what an annotator or the
reader of a source has noted beside them: every range is unknown, and of a record only the parent
and the identity are left.

Two kinds of lemma stand here.  A question does not see the difference, or sees it only in the range
of the header that it answers.  An update of a plain forest is the update of the forest made plain,
and for marks and ranges there is nothing left of it.  None of them needs the parts of the forest to
fit together.
-/

namespace SyntaxForest

/-- A header without the range. -/
def Header.plain (h : Header) : Header := { h with pos := noPosition, len := noPosition }

/-- A record with nothing but the parent and the identity. -/
def NodeRecord.plain (r : NodeRecord) : NodeRecord := { parent := r.parent, id := r.id }

/-- A forest without marks and ranges. -/
def Forest.plain (f : Forest) : Forest where
  headers := f.headers.map .plain
  records := f.records.map .plain
  pools := f.pools

@[simp] theorem Header.kind_plain (h : Header) : h.plain.kind = h.kind := rfl

/-- No mark is left in a plain record. -/
@[simp] theorem Mark.plain_write (m : Mark) (r : NodeRecord) : (m.write r).plain = r.plain := by
  cases m with
  | attach attachment _ => cases attachment <;> rfl
  | _ => rfl

namespace Forest

/-- A forest without nodes has nothing that could be left out. -/
@[simp] theorem empty_plain : empty.plain = empty := by simp [plain, empty]

variable (f : Forest) (x : Link)

/-! ## Questions -/

/-- No node is left out. -/
@[simp] theorem size_plain : f.plain.size = f.size := Array.size_map

@[simp] theorem size_records_plain : f.plain.records.size = f.records.size := Array.size_map

/-- A plain forest finds the headers of the forest, without their ranges. -/
@[simp] theorem header?_plain : f.plain.header? x = (f.header? x).map .plain := by
  cases x <;> simp [header?, plain]

/-- A plain forest finds the records of the forest, without their marks. -/
@[simp] theorem record?_plain : f.plain.record? x = (f.record? x).map .plain := by
  cases x <;> simp [record?, plain]

/-- The entry of a header holds what it did, since the pools stay. -/
@[simp] theorem held?_plain (h : Header) : f.plain.held? h = f.held? h := rfl

/-- The range of a header does not tell which entry belongs to it. -/
@[simp] theorem held?_header_plain (h : Header) : f.held? h.plain = f.held? h := rfl

/-- Contents are values, and all of them are kept. -/
@[simp] theorem contents?_plain : f.plain.contents? x = f.contents? x := by
  rw [contents?, header?_plain, contents?]
  cases f.header? x <;> rfl

@[simp] theorem contains_plain : f.plain.contains x = f.contains x := by
  simp [contains]

/-- A header without its range still has its kind. -/
@[simp] theorem kind?_plain : f.plain.kind? x = f.kind? x := by
  rw [kind?, header?_plain, Option.map_map]
  rfl

/-- Children are named by contents, so they stay. -/
@[simp] theorem children_plain : f.plain.children x = f.children x := by
  simp [children]

@[simp] theorem below_plain : f.plain.below = f.below :=
  funext fun x => f.children_plain (some x)

@[simp] theorem child_plain (slot : ChildSlot) : f.plain.child x slot = f.child x slot := by
  simp [child]

@[simp] theorem list_plain (slot : ListSlot) : f.plain.list x slot = f.list x slot := by
  simp [list]

/-- The parent is one of the two fields that a plain record keeps. -/
@[simp] theorem parent_plain : f.plain.parent x = f.parent x := by
  rw [parent, record?_plain, parent]
  cases f.record? x <;> rfl

/-- Going up from parent to parent leads to the same nodes. -/
@[simp] theorem lineage_plain (bound : Nat) : f.plain.lineage bound x = f.lineage bound x := by
  induction bound generalizing x with
  | zero => rfl
  | succ bound ih => cases x with
    | none => rfl
    | some x => simp [lineage, ih]

@[simp] theorem ancestors_plain : f.plain.ancestors x = f.ancestors x := by
  simp [ancestors]

/-- Going down leads to the same nodes in the same order. -/
@[simp] theorem preorder_plain : f.plain.preorder x = f.preorder x := by
  cases x <;> simp [preorder, visit]

@[simp] theorem height_plain : f.plain.height x = f.height x := by
  cases x <;> simp [height]

/-- The same trees are too high. -/
@[simp] theorem checkHeight_plain : f.plain.checkHeight x = f.checkHeight x := by
  simp [checkHeight]

/-! ## Demands

The answers are the same, and of a header that is answered only the range is different. -/

/-- An unknown node is the same error; of a known one the range is gone. -/
theorem header_plain : f.plain.header x = Header.plain <$> f.header x := by
  rw [header, header?_plain, header]
  cases f.header? x <;> rfl

/-- The demand on a kind is met or refused as before, and only the range is gone. -/
theorem headerOf_plain (expected : Expectation) :
    f.plain.headerOf expected x = Header.plain <$> f.headerOf expected x := by
  rw [headerOf, header?_plain, headerOf]
  cases f.header? x with
  | none => rfl
  | some h =>
    by_cases admitted : expected.admits h.kind <;> simp [admitted]

/-- The contents that are answered, and the errors, are the same. -/
@[simp] theorem contentsOf_plain (expected : Expectation) :
    f.plain.contentsOf expected x = f.contentsOf expected x := by
  rw [contentsOf, headerOf_plain, bind_map_left, contentsOf]
  rfl

/-- A child is refused in the plain forest for the reason for which it is in the forest. -/
@[simp] theorem checkChild_plain (child : Link) (part : Part) (required : Bool) :
    f.plain.checkChild x child part required = f.checkChild x child part required := by
  rw [checkChild, header_plain, bind_map_left, checkChild]
  cases child with
  | none => rfl
  | some c => simp only [header_plain, bind_map_left, ancestors_plain]

@[simp] theorem checkKind_plain (demand : Option Kind) :
    f.plain.checkKind x demand = f.checkKind x demand := by
  cases demand with
  | none => rfl
  | some k =>
    simp only [checkKind, headerOf_plain, bind_map_left]

/-- A list is refused for its first bad entry, and this is the same one. -/
@[simp] theorem checkList_plain (slot : ListSlot) (demand : Option Kind)
    (before children : List Link) :
    f.plain.checkList x slot demand before children =
      f.checkList x slot demand before children := by
  induction children generalizing before with
  | nil => rfl
  | cons child rest ih => simp only [checkList, checkChild_plain, checkKind_plain, ih]

@[simp] theorem checkAppend_plain (child : Link) (slot : ListSlot) (demand : Option Kind) :
    f.plain.checkAppend x child slot demand = f.checkAppend x child slot demand := by
  simp only [checkAppend, checkChild_plain, checkKind_plain, list_plain]

/-- **An edit is refused in the plain forest exactly as it is in the forest.** -/
@[simp] theorem demands_plain (e : Edit) : e.demands f.plain = e.demands f := by
  cases e <;>
    simp only [Edit.demands, headerOf_plain, bind_map_left, contentsOf_plain, checkChild_plain,
      checkList_plain, checkAppend_plain, Header.kind_plain]

/-- A clone is refused in the plain forest exactly as it is in the forest. -/
@[simp] theorem cloneDemands_plain (parent : Link) :
    f.plain.cloneDemands x parent = f.cloneDemands x parent := by
  simp only [cloneDemands, header_plain, bind_map_left, checkHeight_plain]

/-! ## Updates -/

omit f x in
/-- An entry is changed and mapped in either order. -/
theorem map_modify {α β : Type} {φ : α → β} {change : α → α} {change' : β → β}
    (h : ∀ a, φ (change a) = change' (φ a)) (xs : Array α) (i : Nat) :
    (xs.modify i change).map φ = (xs.map φ).modify i change' := by
  apply Array.ext_getElem?
  intro j
  rw [Array.getElem?_map, Array.getElem?_modify, Array.getElem?_modify, Array.getElem?_map]
  split
  · cases xs[j]? with
    | none => rfl
    | some a => exact congrArg some (h a)
  · rfl

omit f x in
/-- A change that the map does not show is not there afterwards. -/
theorem map_modify_eq {α β : Type} {φ : α → β} {change : α → α} (h : ∀ a, φ (change a) = φ a)
    (xs : Array α) (i : Nat) : (xs.modify i change).map φ = xs.map φ := by
  rw [@map_modify _ _ φ change id h]
  apply Array.ext_getElem?
  intro j
  rw [Array.getElem?_modify]
  split <;> simp

/-- New contents are written whether or not the ranges are there. -/
@[simp] theorem plain_setContents (c : Contents) :
    (f.setContents x c).plain = f.plain.setContents x c := by
  rw [setContents, setContents, header?_plain]
  cases f.header? x with
  | none => rfl
  | some h => cases hi : h.entry <;> simp [plain, Header.plain, hi]

/-- A change of a record that respects what a plain record keeps is a change of plain records. -/
theorem plain_modifyRecord {change change' : NodeRecord → NodeRecord}
    (h : ∀ r, (change r).plain = change' r.plain) :
    (f.modifyRecord x change).plain = f.plain.modifyRecord x change' := by
  cases x with
  | none => rfl
  | some x => simp only [modifyRecord, plain, map_modify h]

@[simp] theorem plain_setParent (parent : Link) :
    (f.setParent x parent).plain = f.plain.setParent x parent :=
  f.plain_modifyRecord x fun _ => rfl

/-- A node is let go of by its owner, and whether this is its parent a plain record still tells. -/
@[simp] theorem plain_detach (owner : Link) :
    (f.detach x owner).plain = f.plain.detach x owner := by
  refine f.plain_modifyRecord x fun r => ?_
  by_cases held : r.parent = owner <;> simp [NodeRecord.plain, held]

/-- Marks are not seen in a plain forest. -/
@[simp] theorem plain_mark (m : Mark) : (f.modifyRecord x m.write).plain = f.plain := by
  cases x with
  | none => rfl
  | some x => simp only [modifyRecord, plain, map_modify_eq m.plain_write]

/-- Ranges are not seen in a plain forest. -/
@[simp] theorem plain_setRange (pos len : Int32) : (f.setRange x pos len).plain = f.plain := by
  have unseen (h : Header) : Header.plain { h with pos, len } = h.plain := rfl
  cases x with
  | none => rfl
  | some x => simp only [setRange, plain, map_modify_eq unseen]

/-- A node more is a node more in the plain forest. -/
theorem plain_append (h : Header) (r : NodeRecord) (pools : Pools) :
    (Forest.mk (f.headers.push h) (f.records.push r) pools).plain =
      ⟨f.plain.headers.push h.plain, f.plain.records.push r.plain, pools⟩ := by
  simp only [plain, Array.map_push]

end Forest

end SyntaxForest
