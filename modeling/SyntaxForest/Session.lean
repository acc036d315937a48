import SyntaxForest.Forest.Clone

/-!
# Commands and sessions

`Command` lists everything that changes a forest, as values, so that runs of a forest can be spoken
of.  A session holds several forests and hands out identities: each construction gets the next
number, in whichever forest it happens, and nothing ever gets one back.  A clone repeats the
identities of its source and uses up none.
-/

namespace SyntaxForest

/-- A change of a forest. -/
inductive Command where
  | construct (c : Construction)
  | edit (e : Edit)
  | clone (x parent : Link)
  | clear

namespace Command

/-- Whether the command uses up an identity. -/
def isConstruction : Command → Bool
  | .construct _ => true
  | _ => false

/-- Perform a command, under the identity that a construction would get.  Constructions and clones
answer with the new node. -/
def run (id : Nat) : Command → Editing (Option NodeIndex)
  | .construct c => do
    let x := (← get).size
    modify (·.construct id c)
    return some x
  | .edit e => do
    e.run
    return none
  | .clone x parent => do return some (← Editing.clone x parent)
  | .clear => do
    set Forest.empty
    return none

end Command

/-- Several forests, one of which is the current one, and the identity of the next construction. -/
structure Session where
  forests : Array Forest
  current : Nat := 0
  nextId : Nat := 1

/-- A computation in a session.  What was done before a failure stays done. -/
abbrev InSession (α : Type) := EStateM TreeError Session α

namespace Session

/-- A session over a number of empty forests. -/
def start (count : Nat) : Session := { forests := Array.replicate count Forest.empty }

/-- A forest by its number. -/
def forest (s : Session) (i : Nat) : Forest := s.forests.getD i Forest.empty

/-- The session with another current forest. -/
def replace (s : Session) (f : Forest) : Session :=
  { s with forests := s.forests.setIfInBounds s.current f }

/-- Run an edit on the current forest, which is not part of the session in the meantime. -/
def editing {α : Type} (edit : Editing α) : InSession α := fun s =>
  let f := s.forest s.current
  let s := s.replace Forest.empty
  match edit f with
  | .ok answer f => .ok answer (s.replace f)
  | .error e f => .error e (s.replace f)

/-- Perform a command on the current forest. -/
def perform (c : Command) : InSession (Option NodeIndex) := do
  let id := (← get).nextId
  if c.isConstruction then modify fun s => { s with nextId := id + 1 }
  editing (c.run id)

/-- Make a node in the current forest. -/
def construct (c : Construction) : InSession Link := perform (.construct c)

/-- Edit the current forest. -/
def edit (e : Edit) : InSession Unit := do
  let _ ← perform (.edit e)

/-- A new node of a kind around a node.  Where a kind demands a condition, it gets a name of the
given text. -/
def wrapOnce (kind : Kind) (label : String) (inner : Link) : InSession Link := do
  let outer ← construct (.node kind 0 0)
  match kind with
  | .arrayLiteral => edit (.setList .elements outer [inner])
  | .block => edit (.setList .statements outer [inner])
  | .ifStatement =>
    let condition ← construct (.name 0 label)
    let thenPart ← construct (.node .emptyStatement 0 0)
    edit (.setChild .condition outer condition)
    edit (.setChild .thenPart outer thenPart)
    edit (.setChild .elsePart outer inner)
  | .whileLoop | .doLoop =>
    let condition ← construct (.name 0 label)
    edit (.setChild .condition outer condition)
    edit (.setChild .body outer inner)
  | .tryStatement => edit (.setChild .tryBlock outer inner)
  | _ => pure ()
  return outer

/-- Nodes of a kind around a node, a number of times, each around the one before. -/
def wrap (kind : Kind) (times : Nat) (inner : Link) : InSession Link :=
  (List.range times).foldlM (fun inner i => wrapOnce kind ("c" ++ toString i) inner) inner

end Session

end SyntaxForest
