import Mathlib.Data.List.Forall2
import SyntaxForest.Proofs.Printing
import SyntaxForest.Proofs.Programs

/-!
# Texts from recipes

Printing is taken as the recursion that it is.  A recipe that gets what it asks for gives a text
(`Recipe.Gives`), and since it asks for every child, all of them have texts then
(`Uses.exists_part`).  So what is printed for a node is told by its recipe alone
(`Printer.prints_of_gives`), under whatever options.

A recipe asks for the text of a child at a depth that the node chooses.  The choice is written down
by the slot in which the child stands (`Printer.childDepth_eq_slotDepth`).  What stands behind a
word in the same line is trimmed, which takes the blanks around it and nothing else, if it starts
and ends with characters that show (`trimmed_of_visible`).
-/

namespace SyntaxForest

namespace Recipe

variable {α β γ : Type} {look : Link → Except TreeError α}

/-- With the parts that are looked up the recipe ends with a result. -/
def Gives (look : Link → Except TreeError α) (recipe : Recipe α β) (result : β) : Prop :=
  recipe.withParts look = .ok result

namespace Gives

theorem pure (result : β) : Gives look (pure result : Recipe α β) result := rfl

/-- A recipe goes on with what its first part gives. -/
theorem bind {recipe : Recipe α β} {next : β → Recipe α γ} {first : β} {result : γ}
    (h : Gives look recipe first) (hnext : Gives look (next first) result) :
    Gives look (recipe >>= next) result := by
  rw [Gives, withParts_bind, h]
  exact hnext

/-- A part that is found is what is given for its child. -/
theorem take {child : Link} {part : α} (h : look child = .ok part) :
    Gives look (Recipe.take child) part := by
  rw [Gives, withParts_take, h]

/-- A demand that is met is passed over. -/
theorem require {kind : Kind} {slot : ChildSlot} {child : Link} {next : Recipe α β} {result : β}
    (present : child.isSome) (h : Gives look next result) :
    Gives look (Recipe.require kind slot child >>= fun _ => next) result := by
  unfold Recipe.require
  rw [Option.isNone_eq_false_iff.mpr present]
  exact h

/-- A part that must be there is taken once it is known to be there. -/
theorem takeRequired {kind : Kind} {slot : ChildSlot} {child : Link} {part : α}
    (present : child.isSome) (h : look child = .ok part) :
    Gives look (Recipe.takeRequired kind slot child) part := by
  unfold Recipe.takeRequired
  rw [Option.isNone_eq_false_iff.mpr present]
  exact take h

/-- Where a link is empty, its part is not asked for. -/
theorem optional_none {child : Link} {absent present : Recipe α β} {result : β}
    (empty : child = none) (h : Gives look absent result) :
    Gives look (if child.isNone then absent else present) result := by
  rwa [if_pos (Option.isNone_iff_eq_none.mpr empty)]

theorem optional_some {child : Link} {absent present : Recipe α β} {result : β}
    (some : child.isSome) (h : Gives look present result) :
    Gives look (if child.isNone then absent else present) result := by
  rwa [Option.isNone_eq_false_iff.mpr some]

/-- The parts of a list are given in its order. -/
theorem takeAll {children : List Link} {parts : List α}
    (h : List.Forall₂ (fun child part => look child = .ok part) children parts) :
    Gives look (Recipe.takeAll children) parts := by
  induction h with
  | nil => exact pure []
  | cons first _ ih => exact bind (take first) (bind ih (pure _))

end Gives

/-- **A recipe that gives a result has found every part that it uses.** -/
theorem Uses.exists_part {children : List NodeIndex} {recipe : Recipe α β}
    (h : Uses children recipe) (absent : ∃ error, look none = .error error) {result : β}
    (gives : Gives look recipe result) : ∀ c ∈ children, ∃ part, look (some c) = .ok part := by
  induction h with
  | done => simp
  | fail => cases gives
  | absent children next =>
    obtain ⟨error, absent⟩ := absent
    rw [Gives, withParts, absent] at gives
    cases gives
  | @need children rest child next order _ ih =>
    rw [Gives, withParts] at gives
    cases found : look (some child) with
    | error => rw [found] at gives; cases gives
    | ok part =>
      rw [found] at gives
      intro c hc
      rcases List.mem_cons.mp (order.mem_iff.mp hc) with rfl | hc
      · exact ⟨part, found⟩
      · exact ih part gives c hc

end Recipe

/-! ## Trimming -/

/-- A text ends with a character that shows. -/
def EndsVisibly (text : List Char) : Prop :=
  ∃ init last, text = init ++ [last] ∧ isBlank last = false

/-- What is put in front does not change how a text ends. -/
theorem EndsVisibly.append {text : List Char} (h : EndsVisibly text) (front : List Char) :
    EndsVisibly (front ++ text) := by
  obtain ⟨init, last, rfl, visible⟩ := h
  exact ⟨front ++ init, last, (List.append_assoc ..).symm, visible⟩

/-- Blanks around a text that starts and ends with characters that show are trimmed away. -/
theorem trimmed_of_visible {left text right : List Char} (hleft : left.all isBlank)
    (hright : right.all isBlank)
    (starts : ∃ first more, text = first :: more ∧ isBlank first = false)
    (ends : EndsVisibly text) : trimmed (left ++ (text ++ right)) = text := by
  obtain ⟨first, more, written, firstShows⟩ := starts
  obtain ⟨init, last, written', lastShows⟩ := ends
  have front : ((text ++ right).head?.any isBlank) = false := by
    rw [written]
    exact firstShows
  have back : (text.reverse.head?.any isBlank) = false := by
    rw [written', List.reverse_append]
    exact lastShows
  rw [trimmed, dropWhile_append_of_all hleft front, List.reverse_append,
    dropWhile_append_of_all (by rwa [List.all_reverse]) back, List.reverse_reverse]

/-! ## Strings and lists of characters -/

namespace Printer

theorem toList_concat (texts : List String) :
    (concat texts).toList = texts.flatMap String.toList := by
  have started (start : String) :
      (texts.foldl (· ++ ·) start).toList = start.toList ++ texts.flatMap String.toList := by
    induction texts generalizing start with
    | nil => simp
    | cons text texts ih => rw [List.foldl_cons, ih, String.toList_append, List.append_assoc,
        List.flatMap_cons]
  rw [concat, started]
  rfl

/-- Indentation is one unit for each level. -/
theorem toList_indent (o : PrinterOptions) (depth : Nat) :
    (o.indent depth).toList = (List.replicate depth o.indentUnit.toList).flatten := by
  rw [PrinterOptions.indent_eq]
  show (concat _).toList = _
  rw [toList_concat, List.flatMap_def, List.map_replicate]

@[simp] theorem toList_indent_zero (o : PrinterOptions) : (o.indent 0).toList = [] := by
  rw [toList_indent]
  rfl

/-! ## The text of a node -/

open Recipe

/-- The recursion gives a text for a link at a depth. -/
def Prints (texts : PrintJob → Except TreeError String) (x : Link) (depth : Nat)
    (written : List Char) : Prop :=
  Assembly.resultFor texts (⟨·, depth⟩) x = .ok (String.ofList written)

/-- What the recipe of a node finds for a child: its text at the depth that the node chooses. -/
def lookBelow (f : Forest) (texts : PrintJob → Except TreeError String) (kind : Kind)
    (x : NodeIndex) (depth : Nat) : Link → Except TreeError String :=
  Assembly.resultFor texts fun child => ⟨child, childDepth f kind x child depth⟩

variable {f : Forest} {texts : PrintJob → Except TreeError String}

/-- A recipe finds what is printed for a child if the node chooses the depth of it. -/
theorem Prints.look {a : Link} {depth' : Nat} {written : List Char}
    (h : Prints texts a depth' written) {kind : Kind} {x : NodeIndex} {depth : Nat}
    (chosen : ∀ y, a = some y → childDepth f kind x y depth = depth') :
    lookBelow f texts kind x depth a = .ok (String.ofList written) := by
  cases a with
  | none => cases h
  | some y =>
    show texts ⟨y, childDepth f kind x y depth⟩ = _
    rw [chosen y rfl]
    exact h

/-- The depth of a child by the slot in which it stands. -/
def slotDepth (kind : Kind) (slot : ChildSlot) (block : Bool) (depth : Nat) : Nat :=
  match kind with
  | .block => depth + 1
  | .expressionStatement | .tryStatement => depth
  | .ifStatement => if slot = .condition then 0 else depth
  | .catchClause => if slot = .handlerBody then depth else 0
  | .doLoop => if slot = .body then depth else 0
  | .forInLoop | .whileLoop => if slot = .body then if block then depth else depth + 1 else 0
  | _ => 0

/-- **A node chooses the depth of a child by the slot of the child**, since no child stands in two
slots. -/
theorem childDepth_eq_slotDepth (hf : f.Linked) (kind : Kind) {x z : NodeIndex} {slot : ChildSlot}
    (hz : f.child (some x) slot = some z) (depth : Nat) :
    childDepth f kind x z depth = slotDepth kind slot (isBlock f (some z)) depth := by
  have stands (place : ChildSlot) : f.child (some x) place = some z ↔ slot = place := by
    constructor
    · intro same
      by_contra different
      exact hf.child_ne slot place different same hz
    · rintro rfl
      exact hz
  cases kind <;> simp only [childDepth, slotDepth, stands]

/-- A recipe finds what is printed for a child at the depth that belongs to the slot. -/
theorem Prints.inSlot (hf : f.Linked) {x : Link} {c : Contents} (hc : f.contents? x = some c)
    {y : NodeIndex} (hy : x = some y) (slot : ChildSlot) {a : Link} (ha : c.child? slot = some a)
    {depth : Nat} {written : List Char}
    (h : Prints texts a (slotDepth c.kind slot (isBlock f a) depth) written) :
    lookBelow f texts c.kind y depth a = .ok (String.ofList written) := by
  have stands : f.child (some y) slot = a := by
    rw [← hy, Forest.child, hc, Option.bind_some, ha, Option.join_some]
  refine h.look fun z hz => ?_
  subst hz
  exact childDepth_eq_slotDepth hf c.kind stands depth

/-- What is found for every one is found for all. -/
theorem exists_mapM {α β : Type} {F : α → Except TreeError β} {xs : List α}
    (h : ∀ x ∈ xs, ∃ y, F x = .ok y) : ∃ ys, xs.mapM F = .ok ys := by
  induction xs with
  | nil => exact ⟨[], rfl⟩
  | cons x xs ih =>
    obtain ⟨⟨y, hy⟩, rest⟩ := List.forall_mem_cons.mp h
    obtain ⟨ys, hys⟩ := ih rest
    exact ⟨y :: ys, by rw [List.mapM_cons, hy, hys]; rfl⟩

variable {o : PrinterOptions} (htexts : (assembly f o).Recursive texts)
include htexts

/-- **The text of a node is made of those of its children**, once all of these have one. -/
theorem text_eq {x : NodeIndex} {h : Header} (hh : f.header? (some x) = some h) (depth : Nat) :
    texts ⟨x, depth⟩ =
      (f.below x).mapM (fun y => lookBelow f texts h.kind x depth (some y)) >>= fun _ =>
        (recipe f o ⟨x, depth⟩).withParts (lookBelow f texts h.kind x depth) := by
  let jobs : List PrintJob := (f.below x).map fun y => ⟨y, childDepth f h.kind x y depth⟩
  have parts : (assembly f o).parts ⟨x, depth⟩ = .ok jobs := parts_eq hh
  have own : (f.below x).mapM (fun y => lookBelow f texts h.kind x depth (some y)) =
      ((assembly f o).gather texts jobs).map (List.map Prod.snd) := by
    rw [Assembly.map_snd_gather, List.mapM_map]
    rfl
  rw [htexts, Assembly.round_of_parts parts, own]
  cases hfound : (assembly f o).gather texts jobs with
  | error => rfl
  | ok found =>
    -- what was gathered under a node is what is looked up by a link to it
    refine (thorough f o _ _ parts).withParts_congr ⟨_, rfl, rfl⟩ fun y hy => ?_
    obtain ⟨text, lies⟩ := Assembly.exists_lookIn hfound hy
    obtain ⟨part, hpart, rfl, result⟩ := Assembly.exists_of_lookIn hfound lies
    obtain ⟨z, -, rfl⟩ := List.mem_map.mp hpart
    exact lies.trans result.symm

/-- The text of a node with contents is made of those of its children. -/
theorem text_of_contents {x : NodeIndex} {c : Contents} (hc : f.contents? (some x) = some c)
    (depth : Nat) :
    texts ⟨x, depth⟩ =
      c.children.mapM (fun y => lookBelow f texts c.kind x depth (some y)) >>= fun _ =>
        (ofContents f o c depth).withParts (lookBelow f texts c.kind x depth) := by
  obtain ⟨h, hh, held⟩ := Option.bind_eq_some_iff.mp hc
  have kind : h.kind = c.kind :=
    Option.some.inj ((Forest.kind?_of_header? hh).symm.trans (Forest.kind?_of_contents? hc))
  have below : f.below x = c.children := Forest.children_of_contents? hc
  have own : recipe f o ⟨x, depth⟩ = ofContents f o c depth := by
    rw [recipe, hh]
    simp only [held]
  rw [text_eq htexts hh, kind, below, own]

/-- The text of a node without contents is made of nothing. -/
theorem text_of_bare {x : NodeIndex} {k : Kind} (hk : f.kind? (some x) = some k)
    (absent : f.contents? (some x) = none) (depth : Nat)
    (look : Link → Except TreeError String) :
    texts ⟨x, depth⟩ = (ofBare o k depth).withParts look := by
  obtain ⟨h, hh, rfl⟩ := Option.map_eq_some_iff.mp hk
  have below : f.below x = [] := by rw [Forest.below, Forest.children, absent]
  have own : recipe f o ⟨x, depth⟩ = ofBare o h.kind depth := by
    rw [Forest.contents?, hh, Option.bind_some] at absent
    rw [recipe, hh]
    simp only [absent]
  rw [text_eq htexts hh, below, own]
  cases h.kind <;> rfl

/-- **If the recipe of a node gives a text, this is the text of the node.** -/
theorem text_of_gives {x : NodeIndex} {c : Contents} (hc : f.contents? (some x) = some c)
    {depth : Nat} {text : String}
    (h : Gives (lookBelow f texts c.kind x depth) (ofContents f o c depth) text) :
    texts ⟨x, depth⟩ = .ok text := by
  -- the recipe gives a text, and it would not if a child had none
  have succeeds := (uses_ofContents f o c depth).exists_part ⟨_, rfl⟩ h
  obtain ⟨found, hfound⟩ := exists_mapM succeeds
  rw [text_of_contents htexts hc, hfound]
  exact h

omit htexts in
/-- Nothing is printed for an empty link. -/
theorem Prints.isSome {a : Link} {depth : Nat} {written : List Char}
    (h : Prints texts a depth written) : a.isSome := by
  cases a with
  | none => cases h
  | some => rfl

/-- What the recipe of a node gives is printed for the node. -/
theorem prints_of_gives {x : Link} {c : Contents} (hc : f.contents? x = some c) {depth : Nat}
    {text : String} {written : List Char}
    (h : ∀ y, x = some y → Gives (lookBelow f texts c.kind y depth) (ofContents f o c depth) text)
    (spells : text.toList = written) : Prints texts x depth written := by
  cases x with
  | none => cases hc
  | some y =>
    show texts ⟨y, depth⟩ = _
    rw [text_of_gives htexts hc (h y rfl), ← spells, String.ofList_toList]

/-- A node without contents is printed without children. -/
theorem prints_of_bare (hf : f.Linked) {x : Link} {k : Kind} (hk : f.kind? x = some k)
    (bare : k.isBare) {depth : Nat} {text : String} {written : List Char}
    (h : ofBare o k depth = pure text) (spells : text.toList = written) :
    Prints texts x depth written := by
  cases x with
  | none => cases hk
  | some x =>
    have absent : f.contents? (some x) = none := by
      simpa [hk, bare] using hf.intact.isSome_contents?_eq (some x)
    show texts ⟨x, depth⟩ = _
    rw [text_of_bare htexts hk absent depth fun _ => .error (.unknownNode none), h, ← spells,
      String.ofList_toList]
    rfl

omit htexts

/-! ## Elements -/

/-- The text between the brackets of a literal. -/
def joined (f : Forest) (xs : List Link) (parts : List String) : String :=
  String.intercalate ", " parts ++ if endsWithElision f xs then "," else ""

/-- Texts for some links, all at one depth. -/
def PrintsAll (texts : PrintJob → Except TreeError String) (depth : Nat) (xs : List Link)
    (parts : List String) : Prop :=
  List.Forall₂ (fun x part => Assembly.resultFor texts (⟨·, depth⟩) x = .ok part) xs parts

/-- What stands between the brackets is given once there is a text for each element. -/
theorem gives_elements {look : Link → Except TreeError String} {xs : List Link}
    {parts : List String}
    (h : List.Forall₂ (fun x part => look x = .ok part) xs parts) :
    Gives look (elements f xs) (joined f xs parts) :=
  .bind (.takeAll h) (.pure _)

end Printer

end SyntaxForest
