import SyntaxForest.Proofs.Likeness
import SyntaxForest.Proofs.RoseTrees

/-!
# Outlines as nested lists

An outline is written from two encodings of a tree.  The order of its lines comes from what the
nodes store, and how far a line is indented comes from the parents, counted up to the root of
whatever tree the dump stands in.  `Reached.outline_nested` says that the two fit together: a tree
is dumped as its heading and then the dumps of the trees below, each moved two blanks to the right.

* `Rose.outline` — the nested lines of a tree of headings, by recursion over the tree;
* `Linked.lines_eq` — the lines that are indented by their depth are these lines.

What is load-bearing is that a node has one ancestor more than the node that stores it.  A clone
that was put under a parent may have any number of ancestors, so the lemma for the induction speaks
of a tree that starts at any level.
-/

namespace SyntaxForest

/-- The lines of a tree: its own, and those of the trees below, two blanks further to the right. -/
def Rose.outline : Rose String → List String :=
  Rose.fold fun heading parts => heading :: parts.flatMap (List.map ("  " ++ ·))

theorem Rose.outline_node (heading : String) (below : List (Rose String)) :
    (Rose.node heading below).outline =
      heading :: below.flatMap fun t => t.outline.map ("  " ++ ·) := by
  rw [outline, fold_node, List.flatMap_map]

namespace Outline

/-- What the line of a node says about it: the kind, and where it begins and how long it is. -/
def heading (h : Header) : String :=
  h.kind.toString ++ " " ++ toString h.pos.toInt ++ " " ++ toString h.len.toInt

/-- The blanks in front of a line. -/
def margin (level : Nat) : String := String.ofList (List.replicate (2 * level) ' ')

theorem margin_succ (level : Nat) : margin (level + 1) = margin level ++ "  " := by
  rw [margin, Nat.mul_succ, List.replicate_add, String.ofList_append]
  rfl

theorem line_eq (h : Header) (level : Nat) : line h level = margin level ++ heading h ++ "\n" := by
  simp only [line, margin, heading, String.append_assoc]

theorem newline_notMem_toString (n : Int) : '\n' ∉ (toString n).toList := by
  have digits (n : Nat) : '\n' ∉ n.repr.toList := by
    intro mem
    rw [Nat.toList_repr] at mem
    cases Nat.isDigit_of_mem_toDigits (by decide) (by decide) mem
  cases n with
  | ofNat n => exact digits n
  | negSucc n =>
    show '\n' ∉ ("-" ++ (n + 1).repr).toList
    rw [String.toList_append, List.mem_append]
    exact not_or.mpr ⟨by decide, digits _⟩

/-- No heading is broken. -/
theorem newline_notMem_heading (h : Header) : '\n' ∉ (heading h).toList := by
  have kind : '\n' ∉ h.kind.toString.toList := by cases h.kind <;> decide
  simp only [heading, String.toList_append, List.mem_append, not_or]
  exact ⟨⟨⟨⟨kind, by decide⟩, newline_notMem_toString _⟩, by decide⟩, newline_notMem_toString _⟩

end Outline

namespace Forest

open Traversal

variable {f : Forest} {x : NodeIndex}

/-- The heading of a node. -/
def heading (f : Forest) (x : NodeIndex) : String :=
  ((f.header? (some x)).map Outline.heading).getD ""

/-- The tree of headings from a node down. -/
def headings (f : Forest) (x : NodeIndex) : Rose String := gather f.below f.heading f.size x

theorem lineAt_eq (hx : f.contains (some x)) {base level : Nat}
    (at_level : f.depth (some x) = base + level) :
    Outline.lineAt f base x = Outline.margin level ++ f.heading x ++ "\n" := by
  obtain ⟨h, hh⟩ := exists_header?_of_contains hx
  rw [Outline.lineAt, heading, hh, at_level, Nat.add_sub_cancel_left]
  exact Outline.line_eq h level

/-- The headings of a tree stand in a line each. -/
theorem newline_notMem_outline (x : NodeIndex) :
    ∀ line ∈ (f.headings x).outline, '\n' ∉ line.toList := by
  have own (x : NodeIndex) : '\n' ∉ (f.heading x).toList := by
    unfold heading
    cases f.header? (some x) with
    | none => decide
    | some h => exact Outline.newline_notMem_heading h
  unfold headings
  induction f.size generalizing x with
  | zero =>
    rw [gather, Rose.outline_node]
    exact List.forall_mem_singleton.mpr (own x)
  | succ room ih =>
    rw [gather, Rose.outline_node]
    refine List.forall_mem_cons.mpr ⟨own x, ?_⟩
    simp only [List.flatMap_map, List.mem_flatMap, List.mem_map]
    rintro _ ⟨y, -, line, hline, rfl⟩
    rw [String.toList_append, List.mem_append]
    exact not_or.mpr ⟨by decide, ih y line hline⟩

namespace Linked

/-- **Lines that are indented by their depth are nested lines**, of a tree that starts at a level
below the first node of the dump, as far down as there is room. -/
theorem lines_eq (hf : f.Linked) (hx : f.contains (some x)) {base level : Nat}
    (at_level : f.depth (some x) = base + level) (room : Nat) :
    (unfolding f.below room x).map (Outline.lineAt f base) =
      (gather f.below f.heading room x).outline.map (Outline.margin level ++ · ++ "\n") := by
  induction room generalizing x level with
  | zero =>
    rw [unfolding, gather, Rose.outline_node, List.map_singleton, lineAt_eq hx at_level]
    rfl
  | succ room ih =>
    rw [unfolding, gather, Rose.outline_node, List.map_cons, List.map_cons, lineAt_eq hx at_level,
      List.map_flatMap, List.map_flatMap, List.flatMap_map]
    refine congrArg (_ :: ·) (List.flatMap_congr fun y hy => ?_)
    have deeper : f.depth (some y) = base + (level + 1) := by
      rw [depth_of_parent hf.grounded hf.parents hf.intact (hf.parent_of_mem hy), at_level,
        Nat.add_assoc]
    -- two blanks at the end of the margin are two blanks in front of the line
    rw [ih (hf.contains_of_mem hy) deeper, List.map_map]
    refine List.map_congr_left fun line _ => ?_
    simp only [Outline.margin_succ, Function.comp_apply, String.append_assoc]

/-- The nested lines of a node are its heading, and those of its children to the right. -/
theorem outline_headings (hf : f.Linked) (x : NodeIndex) :
    (f.headings x).outline = f.heading x ::
      (f.children (some x)).flatMap fun y => (f.headings y).outline.map ("  " ++ ·) := by
  rw [headings, gather_eq hf.rank_lt (f.rank_le x), Rose.outline_node, List.flatMap_map]
  rfl

/-- **A dump is the nested lines of the tree.** -/
theorem outline_eq_join (hf : f.Linked) (hx : f.contains (some x)) :
    f.outline (some x) = String.join ((f.headings x).outline.map (· ++ "\n")) := by
  have lines := hf.lines_eq hx (Nat.add_zero _).symm f.size
  have bare : (Outline.margin 0 ++ · ++ "\n") = (· ++ "\n") :=
    funext fun _ => congrArg (· ++ "\n") String.empty_append
  rw [hf.outline_some hx, preorder_some hx, headings, ← bare, ← lines, String.join, List.foldl_map]

end Linked

end Forest

/-- **A dump shows how the tree is nested**, wherever in a forest that was reached it starts: below
or at a clone that its parent does not store, too.  It is written from lines, and these are defined
by recursion: the line of the first node with its kind, position and length, and then for each of
its children the lines of the child, two blanks further to the right.  What is no node has no
lines. -/
theorem Reached.outline_nested {f : Forest} {loose : List NodeIndex} (h : Reached f loose) :
    (∀ x, f.contains (some x) →
      f.outline (some x) = String.join ((f.headings x).outline.map (· ++ "\n"))) ∧
    (∀ x, (f.headings x).outline = f.heading x ::
      (f.children (some x)).flatMap fun y => (f.headings y).outline.map ("  " ++ ·)) ∧
    (∀ x header, f.header? (some x) = some header →
      f.heading x = header.kind.toString ++ " " ++ toString header.pos.toInt ++ " " ++
        toString header.len.toInt) ∧
    (∀ x, ∀ line ∈ (f.headings x).outline, '\n' ∉ line.toList) ∧
    ∀ x : Link, f.contains x = false → f.outline x = "" := by
  have hf := h.tended.linked
  refine ⟨fun x hx => hf.outline_eq_join hx, hf.outline_headings, fun x header hh => ?_,
    f.newline_notMem_outline, fun x hx => ?_⟩
  · rw [Forest.heading, hh]
    rfl
  · cases x with
    | none => rfl
    | some x => exact congrArg Outline.Dump.text (if_neg (Bool.eq_false_iff.mp hx))

/-- The clone under the loop has two ancestors and its dump starts without blanks; the loop that it
holds is a node in the middle of a tree. -/
theorem outline_nested_clone :
    (Command.perform Command.nested).2 = [3] ∧
    (Command.perform Command.nested).1.ancestors (some 3) = [1, 0] ∧
    (Command.perform Command.nested).1.outline (some 3) =
      "Block 0 0\n  WhileLoop 0 0\n    Name 0 1\n" ∧
    (Command.perform Command.nested).1.outline (some 4) = "WhileLoop 0 0\n  Name 0 1\n" := by
  have nested := (reached_perform Command.nested).outline_nested
  have clone : ((Command.perform Command.nested).1.headings 3).outline =
      ["Block 0 0", "  WhileLoop 0 0", "    Name 0 1"] := by decide +kernel
  have loop : ((Command.perform Command.nested).1.headings 4).outline =
      ["WhileLoop 0 0", "  Name 0 1"] := by decide +kernel
  refine ⟨by decide +kernel, by decide +kernel, ?_, ?_⟩
  · rw [nested.1 3 (by decide +kernel), clone]
    rfl
  · rw [nested.1 4 (by decide +kernel), loop]
    rfl

end SyntaxForest
