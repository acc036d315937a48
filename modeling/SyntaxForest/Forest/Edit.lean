import SyntaxForest.Forest.Update

/-!
# Edits

The operations that change a node.  The rule for children is ownership: a node stands in one place
at a time.  Whoever stores a child takes it out of the place where it stood (`release`), becomes
its parent, and lets go of what stood in the slot before, which becomes a root.

An edit runs in `Editing`, where a failure keeps what was done before it.  In a forest that was
built by edits nothing has been done when an edit fails, for all demands are checked first; only a
forest that has lost parts of its nodes can fail half-way.

`Edit` lists the edits as values, so that runs can be spoken of.
-/

namespace SyntaxForest

/-! ## Demands on children -/

namespace Forest

/-- Whether a child may be stored under a node: it is a node, and neither the node itself nor one
of its ancestors.  No child is as good as any where the part may stay empty. -/
def checkChild (f : Forest) (node child : Link) (part : Part) (required : Bool) :
    Except TreeError Unit := do
  let h ← f.header node
  match child with
  | none => if required then throw (.missingRequiredChild h.kind part)
  | some c =>
    let _ ← f.header child
    if child = node ∨ c ∈ f.ancestors node then throw (.wouldCreateCycle node child)

/-- Whether a node has the kind that a list demands of its entries, if it demands one. -/
def checkKind (f : Forest) (child : Link) (demand : Option Kind) : Except TreeError Unit := do
  if let some k := demand then
    let _ ← f.headerOf (.kind k) child

/-- Whether a child is not in a list yet. -/
def checkAbsent (slot : ListSlot) (child : Link) (entries : List Link) : Except TreeError Unit :=
  if child ∈ entries then throw (.duplicateChild child slot) else pure ()

/-- Whether a list of children may be stored under a node.  The entries are checked in turn, each
for what a single child is checked for, for its kind, and against those before it. -/
def checkList (f : Forest) (node : Link) (slot : ListSlot) (demand : Option Kind)
    (before : List Link) : List Link → Except TreeError Unit
  | [] => pure ()
  | child :: rest => do
    f.checkChild node child (.list slot) true
    f.checkKind child demand
    checkAbsent slot child before
    f.checkList node slot demand (child :: before) rest

/-- Whether a child may be added to the list of a node.  The properties of an object are checked
for their kind first, handlers last. -/
def checkAppend (f : Forest) (node child : Link) (slot : ListSlot) (demand : Option Kind) :
    Except TreeError Unit := do
  let checkPlace : Except TreeError Unit := do
    f.checkChild node child (.list slot) true
    checkAbsent slot child (f.list node slot)
  match slot with
  | .elements => do f.checkKind child demand; checkPlace
  | .statements | .catchClauses => do checkPlace; f.checkKind child demand

end Forest

/-- Whether the contents of a node are asked for before its child is checked.  A condition and the
elements of a literal are shared by several kinds, and for them the header is enough at first. -/
def ChildSlot.needsContents (slot : ChildSlot) : Bool := slot != .condition

@[inherit_doc ChildSlot.needsContents]
def ListSlot.needsContents (slot : ListSlot) : Bool := slot != .elements

/-! ## Edits of children -/

/-- A computation that changes a forest and may fail. -/
abbrev Editing (α : Type) := EStateM TreeError Forest α

namespace Editing

/-- Ask the forest something that may be an error. -/
def ask {α : Type} (question : Forest → Except TreeError α) : Editing α := do
  match question (← get) with
  | .ok answer => pure answer
  | .error e => throw e

/-- Take a child out of every slot of its parent, so that it becomes a root. -/
def release (child : Link) : Editing Unit := do
  match (← get).parent child with
  | none => pure ()
  | some owner =>
    let h ← ask (·.header (some owner))
    match (← get).contents? (some owner) with
    | some c => modify (·.setContents (some owner) (c.erase child))
    | none => if !h.kind.isLeaf then throw (.unknownNode (some owner))
    modify (·.setParent child none)

/-- Store a child in a slot, or empty the slot. -/
def setChild (slot : ChildSlot) (node child : Link) : Editing Unit := do
  let _ ← ask (·.headerOf slot.owner node)
  if slot.needsContents then
    let _ ← ask (·.contentsOf slot.owner node)
  ask (·.checkChild node child (.child slot) slot.isRequired)
  release child
  let c ← ask (·.contentsOf slot.owner node)
  let old := (c.child? slot).join
  modify (·.setContents node (c.setChild slot child))
  if old ≠ child then modify (·.detach old node)
  modify (·.setParent child node)

/-- Replace a list of children. -/
def setList (slot : ListSlot) (node : Link) (children : List Link) : Editing Unit := do
  let h ← ask (·.headerOf slot.owner node)
  if slot.needsContents then
    let _ ← ask (·.contentsOf slot.owner node)
  ask (·.checkList node slot (slot.entryKind? h.kind) [] children)
  children.forM release
  let c ← ask (·.contentsOf slot.owner node)
  let old := (c.list? slot).getD []
  modify (·.setContents node (c.setList slot children))
  old.forM fun entry => do
    if entry ∉ children then modify (·.detach entry node)
  children.forM fun child => modify (·.setParent child node)

/-- Add a child at the end of a list. -/
def append (slot : ListSlot) (node child : Link) : Editing Unit := do
  let h ← ask (·.headerOf slot.owner node)
  if slot.needsContents then
    let _ ← ask (·.contentsOf slot.owner node)
  ask (·.checkAppend node child slot (slot.entryKind? h.kind))
  release child
  let c ← ask (·.contentsOf slot.owner node)
  modify (·.setContents node (c.setList slot ((c.list? slot).getD [] ++ [child])))
  modify (·.setParent child node)

end Editing

/-! ## Edits of values -/

/-- A value inside the contents of a node. -/
inductive Scalar where
  | destructuringLength (value : Int32)
  | skipCount (value : Int32)
  | isDestructuring (value : Bool)
  /-- The token of a number; it is written once. -/
  | token (value : String)
  | number (value : Binary64)
  | identifier (value : String)
  | string (value : String) (quote : Char)
  | keyword (value : Keyword)
  | elsePosition (value : Int32)
  | parens (lp rp : Int32)
  | finallyPosition (value : Int32)
  | handlerPositions (ifPosition lp rp : Int32)
  | loopParens (lp rp : Int32)
  /-- One more label of a loop; a label that it has already is ignored. -/
  | loopLabel (value : String)
  | isForEach (value : Bool)
  | inPosition (value : Int32)
  | eachPosition (value : Int32)
  | whilePosition (value : Int32)
  deriving Repr

namespace Scalar

/-- The nodes that have the value. -/
def owner : Scalar → Expectation
  | .destructuringLength _ | .skipCount _ => .kind .arrayLiteral
  | .isDestructuring _ => .container
  | .token _ | .number _ => .kind .numberLiteral
  | .identifier _ => .kind .name
  | .string .. => .kind .stringLiteral
  | .keyword _ => .kind .keywordLiteral
  | .elsePosition _ | .parens .. => .kind .ifStatement
  | .finallyPosition _ => .kind .tryStatement
  | .handlerPositions .. => .kind .catchClause
  | .loopParens .. | .loopLabel _ => .loop
  | .isForEach _ | .inPosition _ | .eachPosition _ => .kind .forInLoop
  | .whilePosition _ => .kind .doLoop

/-- Change what every loop has. -/
def writeLoop (s : Scalar) (loop : Contents.Loop) : Contents.Loop :=
  match s with
  | .loopParens lp rp => { loop with lp, rp }
  | .loopLabel label =>
    if label ∈ loop.labels then loop else { loop with labels := loop.labels ++ [label] }
  | _ => loop

/-- Write the value into contents that have it; other contents stay as they are. -/
def write (s : Scalar) : Contents → Contents
  | .name c => .name <| match s with
    | .identifier v => { c with identifier := v }
    | _ => c
  | .numberLiteral c => .numberLiteral <| match s with
    | .token v => { c with token := some v }
    | .number v => { c with value := v }
    | _ => c
  | .stringLiteral c => .stringLiteral <| match s with
    | .string value quote => { c with value, quote }
    | _ => c
  | .keywordLiteral c => .keywordLiteral <| match s with
    | .keyword v => { c with keyword := v }
    | _ => c
  | .arrayLiteral c => .arrayLiteral <| match s with
    | .destructuringLength v => { c with destructuringLength := v }
    | .skipCount v => { c with skipCount := v }
    | .isDestructuring v => { c with isDestructuring := v }
    | _ => c
  | .objectLiteral c => .objectLiteral <| match s with
    | .isDestructuring v => { c with isDestructuring := v }
    | _ => c
  | .ifStatement c => .ifStatement <| match s with
    | .elsePosition v => { c with elsePosition := v }
    | .parens lp rp => { c with lp, rp }
    | _ => c
  | .tryStatement c => .tryStatement <| match s with
    | .finallyPosition v => { c with finallyPosition := v }
    | _ => c
  | .catchClause c => .catchClause <| match s with
    | .handlerPositions ifPosition lp rp => { c with ifPosition, lp, rp }
    | _ => c
  | .forInLoop c => .forInLoop <| match s with
    | .isForEach v => { c with isForEach := v }
    | .inPosition v => { c with inPosition := v }
    | .eachPosition v => { c with eachPosition := v }
    | s => { c with loop := s.writeLoop c.loop }
  | .doLoop c => .doLoop <| match s with
    | .whilePosition v => { c with whilePosition := v }
    | s => { c with loop := s.writeLoop c.loop }
  | .whileLoop c => .whileLoop { c with loop := s.writeLoop c.loop }
  | c => c

/-- Whether contents hold the value for good already. -/
def isFrozenIn : Scalar → Contents → Bool
  | .token _, .numberLiteral c => c.token.isSome
  | _, _ => false

end Scalar

/-- A mark in the record of a node. -/
inductive Mark where
  | line (value : Int32)
  | change (value : Change)
  | changeNoPropagate (value : Change)
  | moved (value : Bool)
  | fixedPosition (value : Bool)
  /-- Records under a name; they are attached once. -/
  | attach (attachment : Attachment) (records : AnnotationSet)

namespace Mark

/-- Write the mark into a record. -/
def write (m : Mark) (r : NodeRecord) : NodeRecord :=
  match m with
  | .line v => { r with line := v }
  | .change v => { r with change := v }
  | .changeNoPropagate v => { r with changeNoPropagate := v }
  | .moved v => { r with moved := v }
  | .fixedPosition v => { r with fixedPosition := v }
  | .attach .criteria records => { r with criteria := some records }
  | .attach .dependencies records => { r with dependencies := some records }

end Mark

namespace Editing

/-- Write a value into the contents of a node. -/
def write (s : Scalar) (node : Link) : Editing Unit := do
  let c ← ask (·.contentsOf s.owner node)
  if s.isFrozenIn c then throw (.valueAlreadySet c.kind .token)
  modify (·.setContents node (s.write c))

/-- Write a mark into the record of a node. -/
def mark (m : Mark) (node : Link) : Editing Unit := do
  match (← get).record? node with
  | none => throw (.unknownNode node)
  | some r =>
    if let .attach attachment _ := m then
      if (r.attachment attachment).isSome then throw (.annotationsFrozen node attachment)
    modify (·.modifyRecord node m.write)

/-- Give a node another range. -/
def setRange (node : Link) (pos len : Int32) : Editing Unit := do
  let _ ← ask (·.header node)
  modify (·.setRange node pos len)

end Editing

/-! ## Edits as values -/

/-- An edit of one node. -/
inductive Edit where
  | setChild (slot : ChildSlot) (node child : Link)
  | setList (slot : ListSlot) (node : Link) (children : List Link)
  | append (slot : ListSlot) (node child : Link)
  | write (value : Scalar) (node : Link)
  | mark (m : Mark) (node : Link)
  | setRange (node : Link) (pos len : Int32)

/-- Perform an edit. -/
def Edit.run : Edit → Editing Unit
  | .setChild slot node child => Editing.setChild slot node child
  | .setList slot node children => Editing.setList slot node children
  | .append slot node child => Editing.append slot node child
  | .write value node => Editing.write value node
  | .mark m node => Editing.mark m node
  | .setRange node pos len => Editing.setRange node pos len

end SyntaxForest
