import SyntaxForest.Forest.Basic

/-!
# Single updates

The updates from which every edit is put together: other contents for a node, another record,
another header.  An update of something that the forest does not have changes nothing.

After each update the queries answer as before, but for the part that was written: the lemmas say
so for headers, contents and records.
-/

namespace SyntaxForest

namespace Forest

/-- Give a node other contents of its kind. -/
def setContents (f : Forest) (x : Link) (c : Contents) : Forest :=
  match (f.header? x).bind (·.entry) with
  | some i => { f with pools := f.pools.set i c }
  | none => f

/-- Change the record of a node. -/
def modifyRecord (f : Forest) (x : Link) (change : NodeRecord → NodeRecord) : Forest :=
  match x with
  | some i => { f with records := f.records.modify i change }
  | none => f

/-- Give a node another parent. -/
def setParent (f : Forest) (x parent : Link) : Forest :=
  f.modifyRecord x fun r => { r with parent }

/-- Make a node that a slot has lost a root, unless another node is its parent by now. -/
def detach (f : Forest) (x owner : Link) : Forest :=
  f.modifyRecord x fun r => if r.parent = owner then { r with parent := none } else r

/-- Give a node another range. -/
def setRange (f : Forest) (x : Link) (pos len : Int32) : Forest :=
  match x with
  | some i => { f with headers := f.headers.modify i fun h => { h with pos, len } }
  | none => f

/-! ## What stays -/

@[simp] theorem headers_setContents (f : Forest) (x : Link) (c : Contents) :
    (f.setContents x c).headers = f.headers := by
  unfold setContents; split <;> rfl

@[simp] theorem records_setContents (f : Forest) (x : Link) (c : Contents) :
    (f.setContents x c).records = f.records := by
  unfold setContents; split <;> rfl

/-- Other contents leave every header. -/
@[simp] theorem header?_setContents (f : Forest) (x : Link) (c : Contents) (y : Link) :
    (f.setContents x c).header? y = f.header? y := by
  simp [header?]

/-- Other contents leave every record. -/
@[simp] theorem record?_setContents (f : Forest) (x : Link) (c : Contents) (y : Link) :
    (f.setContents x c).record? y = f.record? y := by
  simp [record?]

@[simp] theorem headers_modifyRecord (f : Forest) (x : Link) (g : NodeRecord → NodeRecord) :
    (f.modifyRecord x g).headers = f.headers := by
  unfold modifyRecord; split <;> rfl

@[simp] theorem pools_modifyRecord (f : Forest) (x : Link) (g : NodeRecord → NodeRecord) :
    (f.modifyRecord x g).pools = f.pools := by
  unfold modifyRecord; split <;> rfl

/-- Another record leaves every header. -/
@[simp] theorem header?_modifyRecord (f : Forest) (x : Link) (g : NodeRecord → NodeRecord)
    (y : Link) : (f.modifyRecord x g).header? y = f.header? y := by
  simp [header?]

/-- Another record leaves the contents of every node. -/
@[simp] theorem contents?_modifyRecord (f : Forest) (x : Link) (g : NodeRecord → NodeRecord)
    (y : Link) : (f.modifyRecord x g).contents? y = f.contents? y := by
  unfold contents?
  rw [header?_modifyRecord]
  congr 1
  funext h
  simp [held?]

/-- A change of a record shows at its node and nowhere else. -/
theorem record?_modifyRecord (f : Forest) (x : Link) (g : NodeRecord → NodeRecord) (y : Link) :
    (f.modifyRecord x g).record? y = if x = y then (f.record? y).map g else f.record? y := by
  cases x <;> cases y <;> simp [modifyRecord, record?, Array.getElem?_modify]

end Forest

end SyntaxForest
