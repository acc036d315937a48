import SyntaxForest.Interchange
import SyntaxForest.Proofs.Acyclic
import SyntaxForest.Proofs.Asking

/-!
# What records are made of

The record of a node is made of the records of the children that are *embedded* in it: all of them,
but of the handlers of a `try` only the first.  The recipe of a record uses each of these once
(`uses_ofContents`), though not always in their order: a loop that tests behind its body stands in
its record with the test first.

With that, recording is one more assembly that follows its forest, as printing is.
-/

namespace SyntaxForest

namespace Interchange

open Recipe

/-- The links of the children whose records stand in the record of a node. -/
def embedded : Contents → List Link
  | .tryStatement c => [c.tryBlock, c.catchClauses.head?.join, c.finallyBlock]
  | c => c.links

/-! ## What the recipes use -/

theorem uses_optional (child : Link) : Uses child.toList (optional child) := by
  cases child with
  | none => exact .pure _
  | some child => exact uses_take _

theorem uses_array (children : List Link) : Uses (children.filterMap id) (array children) :=
  (uses_takeAll children).bind_pure fun _ => .pure _

/-- **The record of a node uses each of the embedded children once.** -/
theorem uses_ofContents (c : Contents) : Uses ((embedded c).filterMap id) (ofContents c) := by
  cases c with
  | name | stringLiteral | keywordLiteral => exact .pure _
  | numberLiteral c =>
    obtain ⟨token, value⟩ := c
    cases token with
    | none => exact .fail _ _
    | some token => exact .pure _
  | arrayLiteral c => exact (uses_array c.elements).bind_pure fun _ => .pure _
  | objectLiteral c => exact (uses_array c.elements).bind_pure fun _ => .pure _
  | objectProperty c =>
    refine .cons (uses_takeRequired _ _ _) fun _ => ?_
    exact .cons (uses_takeRequired _ _ _) fun _ => .pure _
  | block c => exact (uses_array c.statements).bind_pure fun _ => .pure _
  | expressionStatement c => exact .cons (uses_takeRequired _ _ _) fun _ => .pure _
  | ifStatement c =>
    refine .cons (uses_takeRequired _ _ _) fun _ => .cons (uses_takeRequired _ _ _) fun _ => ?_
    exact .cons (uses_optional _) fun _ => .pure _
  | tryStatement c =>
    obtain ⟨tryBlock, catchClauses, finallyBlock, finallyPosition⟩ := c
    cases catchClauses with
    | nil => exact .fail _ _
    | cons first rest =>
      refine .cons (uses_takeRequired _ _ _) fun _ => .cons (uses_take first) fun _ => ?_
      exact .cons (uses_optional _) fun _ => .pure _
  | catchClause c =>
    refine .cons (uses_takeRequired _ _ _) fun _ => .cons (uses_optional _) fun _ => ?_
    exact .cons (uses_takeRequired _ _ _) fun _ => .pure _
  | forInLoop c =>
    refine .cons (uses_takeRequired _ _ _) fun _ => .cons (uses_takeRequired _ _ _) fun _ => ?_
    exact .cons (uses_takeRequired _ _ _) fun _ => .pure _
  | doLoop c =>
    -- the test is asked for first, and stands behind the body in the tree
    suffices reversed : Uses ([c.condition, c.loop.body].filterMap id) (ofContents (.doLoop c)) from
      reversed.perm ((List.Perm.swap _ _ []).filterMap id)
    refine .cons (uses_takeRequired _ _ _) fun _ => ?_
    exact .cons (uses_takeRequired _ _ _) fun _ => .pure _
  | whileLoop c =>
    refine .cons (uses_takeRequired _ _ _) fun _ => ?_
    exact .cons (uses_takeRequired _ _ _) fun _ => .pure _

/-- A node without contents uses nothing, for a new node has no children. -/
theorem uses_ofBare (kind : Kind) : Uses [] (ofBare kind) := by
  cases kind with
  | name | keywordLiteral | emptyExpression | emptyStatement | stringLiteral => exact .pure _
  | numberLiteral | objectProperty | expressionStatement | ifStatement | tryStatement | catchClause
  | forInLoop | doLoop | whileLoop => exact .fail _ _
  | arrayLiteral | objectLiteral | block => exact .pure _

/-! ## Recording as an assembly -/

/-- What is embedded are children, in their order. -/
theorem embedded_sublist (c : Contents) : ((embedded c).filterMap id).Sublist c.children := by
  cases c with
  | tryStatement c =>
    obtain ⟨tryBlock, catchClauses, finallyBlock, finallyPosition⟩ := c
    cases catchClauses with
    | nil => exact List.Sublist.refl _
    | cons first rest =>
      have links : [finallyBlock].Sublist (rest ++ [finallyBlock]) :=
        List.sublist_append_right rest _
      exact ((links.cons_cons first).cons_cons tryBlock).filterMap id
  | _ => exact List.Sublist.refl _

variable {f : Forest} {x : NodeIndex}

/-- The parts of a node are the children that are embedded in its record. -/
theorem parts_eq {h : Header} (hh : f.header? (some x) = some h) :
    parts f x = .ok ((((f.held? h).map embedded).getD []).filterMap id) := by
  have header : f.header (some x) = .ok h := by
    simp only [Forest.header, hh]
  simp only [parts, header, Bind.bind, Except.bind]
  cases f.held? h with
  | none => rfl
  | some c => cases c <;> rfl

/-- An index that is no node has no parts. -/
theorem parts_error (hh : f.header? (some x) = none) : parts f x = .error (.unknownNode x) := by
  rw [parts, Forest.header, hh]
  rfl

variable (f)

/-- Recording goes down from nodes to children and no other way. -/
theorem follows : (assembly f).Follows f := by
  intro x
  show ((assembly f).below x |>.map id).Sublist _
  rw [List.map_id]
  cases hh : f.header? (some x) with
  | none =>
    have none : (assembly f).below x = [] := by
      rw [Assembly.below, show (assembly f).parts x = _ from parts_error hh]
    rw [none]
    exact List.nil_sublist _
  | some h =>
    rw [Assembly.below_of_parts (parts_eq hh)]
    show List.Sublist _ (f.children (some x))
    rw [Forest.children, Forest.contents?, hh, Option.bind_some]
    cases f.held? h with
    | none => exact List.Sublist.refl _
    | some c => exact embedded_sublist c

/-- **Recording uses every embedded child of a node once.** -/
theorem thorough : (assembly f).Thorough := by
  intro x nodes hparts
  show Uses (nodes.map id) (recipe f x)
  rw [List.map_id, recipe]
  cases hh : f.header? (some x) with
  | none => exact .fail _ _
  | some h =>
    obtain rfl := Except.ok.inj ((parts_eq hh).symm.trans hparts)
    dsimp only
    cases f.held? h with
    | none => exact (uses_ofBare h.kind).bind_pure fun _ => .pure _
    | some c => exact (uses_ofContents c).bind_pure fun _ => .pure _

end Interchange

/-- Recording is the answer of an assembly. -/
theorem Forest.record_eq (f : Forest) (x : Link) : f.record x = (do
    f.checkHeight x
    Assembly.resultFor ((Interchange.assembly f).run f.size) id x) := by
  cases x <;> rfl

end SyntaxForest
