import SyntaxForest.Proofs.Acyclic
import SyntaxForest.Proofs.Recursion
import SyntaxForest.Proofs.Runs
import SyntaxForest.Source.Printer

/-!
# Printing is a recursion

The text of a node is made of the texts of its children, each at a depth that the node chooses.
`print_is_recursion` says that this is what printing answers, although it works from a stack and
keeps finished texts under the indices of their nodes, where a text for another depth or another
place could lie in the way.

What is particular to printing is little: its recipes use every child once (`uses_ofContents`), and
the nodes of the parts of a job are the children of its node (`node_parts`).  A node that stands in
two slots of one parent is printed twice, for the same depth, and the recipe of the parent then asks
for it twice and finds it once; that is why a text is refused there and no text is wrong.
-/

namespace SyntaxForest

namespace Printer

open Recipe

variable (f : Forest) (o : PrinterOptions)

/-! ## What the recipes use -/

theorem uses_elements (items : List Link) : Uses (items.filterMap id) (elements f items) :=
  (uses_takeAll items).bind_pure fun _ => .pure _

theorem uses_loopBody (kind : Kind) (body : Link) : Uses body.toList (loopBody f o kind body) :=
  (uses_takeRequired kind .body body).bind_pure fun _ => .pure _

/-- A conditional is printed from its condition and its branches, each once. -/
theorem uses_ifStatement (c : Contents.IfStatement) (depth : Nat) :
    Uses (Contents.ifStatement c).children (ifStatement f o c depth) := by
  refine .require (.require ?_ ..) ..
  refine .cons (uses_take _) fun _ => .cons (uses_take _) fun _ => ?_
  exact .cons_optional (.pure _) (.cons (uses_take _) fun _ => .pure _)

/-- A `try` is printed from its block, its handlers and what is done in every case. -/
theorem uses_tryStatement (c : Contents.TryStatement) (depth : Nat) :
    Uses (Contents.tryStatement c).children (tryStatement o c depth) := by
  refine .cons (uses_takeRequired _ _ _) fun _ => ?_
  rw [List.filterMap_append]
  refine (uses_takeAll _).bind fun _ => ?_
  exact .cons_optional (.pure _) (.cons (uses_take _) fun _ => .pure _)

/-- A handler is printed from its parameter, its guard and its body. -/
theorem uses_catchClause (c : Contents.CatchClause) (depth : Nat) :
    Uses (Contents.catchClause c).children (catchClause o c depth) := by
  refine .require (.require ?_ ..) ..
  refine .cons (uses_take _) fun _ => .cons_optional ?_ (.cons (uses_take _) fun _ => ?_)
  · exact .pure_bind (.cons (uses_take _) fun _ => .pure _)
  · exact .pure_bind (.cons (uses_take _) fun _ => .pure _)

theorem uses_forInLoop (c : Contents.ForInLoop) (depth : Nat) :
    Uses (Contents.forInLoop c).children (forInLoop f o c depth) := by
  refine .require (.require ?_ ..) ..
  refine .cons (uses_take _) fun _ => .cons (uses_take _) fun _ => ?_
  exact .cons (uses_loopBody f o _ _) fun _ => .pure _

theorem uses_doLoop (c : Contents.DoLoop) (depth : Nat) :
    Uses (Contents.doLoop c).children (doLoop o c depth) := by
  refine .require (.require ?_ ..) ..
  exact .cons (uses_take _) fun _ => .cons (uses_take _) fun _ => .pure _

theorem uses_whileLoop (c : Contents.WhileLoop) (depth : Nat) :
    Uses (Contents.whileLoop c).children (whileLoop f o c depth) := by
  refine .cons (uses_takeRequired _ _ _) fun _ => ?_
  exact .cons (uses_loopBody f o _ _) fun _ => .pure _

/-- **The text of a node uses each of its children once.** -/
theorem uses_ofContents (c : Contents) (depth : Nat) :
    Uses c.children (ofContents f o c depth) := by
  cases c with
  | name | stringLiteral | keywordLiteral => exact .pure _
  | numberLiteral c =>
    obtain ⟨token, value⟩ := c
    cases token with
    | none => exact .fail _ _
    | some token => exact .pure _
  | arrayLiteral c => exact (uses_elements f c.elements).bind_pure fun _ => .pure _
  | objectLiteral c => exact (uses_elements f c.elements).bind_pure fun _ => .pure _
  | objectProperty c =>
    refine .require (.require ?_ ..) ..
    exact .cons (uses_take _) fun _ => .cons (uses_take _) fun _ => .pure _
  | block c => exact (uses_takeAll c.statements).bind_pure fun _ => .pure _
  | expressionStatement c => exact .cons (uses_takeRequired _ _ _) fun _ => .pure _
  | ifStatement c => exact uses_ifStatement f o c depth
  | tryStatement c => exact uses_tryStatement o c depth
  | catchClause c => exact uses_catchClause o c depth
  | forInLoop c => exact uses_forInLoop f o c depth
  | doLoop c => exact uses_doLoop o c depth
  | whileLoop c => exact uses_whileLoop f o c depth

/-- A node without contents uses nothing. -/
theorem uses_ofBare (kind : Kind) (depth : Nat) : Uses [] (ofBare o kind depth) := by
  cases kind <;> constructor

/-! ## Printing as an assembly -/

variable {f}

/-- A node has its children as parts, whatever the depths. -/
theorem parts_eq {job : PrintJob} {h : Header} (hh : f.header? job.node = some h) :
    parts f job = .ok ((f.below job.node).map fun child =>
      ⟨child, childDepth f h.kind job.node child job.depth⟩) := by
  rw [parts, Forest.header, hh]
  rfl

/-- What is no node has no parts. -/
theorem parts_error {job : PrintJob} (hh : f.header? job.node = none) :
    parts f job = .error (.unknownNode job.node) := by
  rw [parts, Forest.header, hh]
  rfl

variable (f)

/-- The parts of a node are its children, at the depths that it chooses. -/
theorem node_parts {job : PrintJob} {jobs : List PrintJob} (h : parts f job = .ok jobs) :
    jobs.map PrintJob.node = f.below job.node := by
  cases hh : f.header? job.node with
  | none => rw [parts_error hh] at h; cases h
  | some header =>
    rw [parts_eq hh] at h
    cases h
    rw [List.map_map]
    exact List.map_id _

/-- Printing goes down from nodes to children and no other way. -/
theorem follows : (assembly f o).Follows f := by
  intro job
  cases h : parts f job with
  | error =>
    have none : (assembly f o).below job = [] := by
      rw [Assembly.below, show (assembly f o).parts job = _ from h]
    rw [none]
    exact List.nil_sublist _
  | ok jobs =>
    rw [Assembly.below_of_parts h, show jobs.map (assembly f o).node = _ from node_parts f h]
    exact List.Sublist.refl _

/-- **Printing uses every child of a node once.** -/
theorem thorough : (assembly f o).Thorough := by
  intro job jobs h
  rw [show jobs.map (assembly f o).node = _ from node_parts f h]
  show Uses (f.below job.node) (recipe f o job)
  rw [Forest.below, Forest.children, Forest.contents?, recipe]
  cases hh : f.header? job.node with
  | none => exact .fail _ _
  | some header =>
    simp only [Option.bind_some]
    cases f.held? header with
    | none => exact uses_ofBare o header.kind job.depth
    | some c => exact uses_ofContents f o c job.depth

end Printer

/-- Printing is the answer of an assembly. -/
theorem Forest.print_eq (f : Forest) (o : PrinterOptions) (x : Link) (depth : Nat) :
    f.print o x depth = (do
      f.checkHeight x
      Assembly.resultFor ((Printer.assembly f o).run f.size) (⟨·, depth⟩) x) := by
  cases x <;> rfl

/-- **Printing is a recursion.**  In a forest without circles there is one function that gives the
text of a node, at a depth, by the recipe of the node from the texts of all its children, each at
the depth that the node chooses, or the first error among these; and a text that printing answers is
the text that this function gives, also where nodes stand in several places.  In forests that were
reached, printing a tree that is not too high answers what the function gives, errors included. -/
theorem print_is_recursion (f : Forest) (o : PrinterOptions) :
    (f.Acyclic →
      (∃! texts, (Printer.assembly f o).Recursive texts) ∧
      ∀ texts, (Printer.assembly f o).Recursive texts → ∀ x depth text,
        f.print o x depth = .ok text → Assembly.resultFor texts (⟨·, depth⟩) x = .ok text) ∧
    (∀ loose, Reached f loose → f.Acyclic ∧
      ∀ texts, (Printer.assembly f o).Recursive texts → ∀ x depth,
        f.height x ≤ Forest.maxHeight →
          f.print o x depth = Assembly.resultFor texts (⟨·, depth⟩) x) := by
  have follows := Printer.follows f o
  have thorough := Printer.thorough f o
  constructor
  · intro acyclic
    refine ⟨follows.existsUnique_recursive acyclic, fun texts htexts x depth text run => ?_⟩
    rw [Forest.print_eq] at run
    exact follows.resultFor_eq_ok thorough acyclic htexts run
  · intro loose reached
    have linked := reached.tended.linked
    refine ⟨linked.acyclic, fun texts htexts x depth height => ?_⟩
    rw [Forest.print_eq]
    exact follows.resultFor_eq thorough linked htexts height

/-- The block is refused by both while the loop in it has no body, and printed by both once it has
one. -/
theorem print_is_recursion_nested :
    (∃ texts, (Printer.assembly (Command.perform Command.nested).1 {}).Recursive texts ∧
      (Command.perform Command.nested).1.print {} (some 0) 0 = texts ⟨0, 0⟩ ∧
      texts ⟨0, 0⟩ = .error (.missingRequiredChild .whileLoop (.child .body))) ∧
    ∃ texts, (Printer.assembly (Command.perform Command.finished).1 {}).Recursive texts ∧
      texts ⟨0, 0⟩ = .ok "\x7b\n    while (a) \n        ;\n\x7d\n" := by
  constructor
  · obtain ⟨free, run⟩ := print_is_recursion (Command.perform Command.nested).1 {}
    obtain ⟨acyclic, equal⟩ := run _ (reached_perform Command.nested)
    obtain ⟨texts, htexts, -⟩ := (free acyclic).1
    have both := equal texts htexts (some 0) 0 (by decide +kernel)
    exact ⟨texts, htexts, both, both.symm.trans (by decide +kernel)⟩
  · obtain ⟨free, run⟩ := print_is_recursion (Command.perform Command.finished).1 {}
    obtain ⟨⟨texts, htexts, -⟩, answers⟩ := free (run _ (reached_perform Command.finished)).1
    have printed : (Command.perform Command.finished).1.print {} (some 0) 0 =
        .ok "\x7b\n    while (a) \n        ;\n\x7d\n" := by decide +kernel
    exact ⟨texts, htexts, answers texts htexts (some 0) 0 _ printed⟩

end SyntaxForest
