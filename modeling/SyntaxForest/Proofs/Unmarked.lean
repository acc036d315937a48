import SyntaxForest.Interchange
import SyntaxForest.Proofs.Pairing
import SyntaxForest.Proofs.Plain
import SyntaxForest.Source.Printer

/-!
# Texts and records without marks

The text of a tree does not depend on marks and ranges at all: printing in the plain forest is the
same computation.  A record does, and only in the four fields with which it ends.  `Json.unmarked`
takes these fields out of a record and of every record inside it, and what is left is the same in
the plain forest, as is every error.

For the record of a node this is a statement about its recipe: from records of children that differ
only in marks it makes a record that differs only in marks (`Interchange.paired_ofContents`).
-/

namespace SyntaxForest

/-! ## Texts -/

namespace Printer

variable (f : Forest) (o : PrinterOptions)

@[simp] theorem isBlock_plain (x : Link) : isBlock f.plain x = isBlock f x := by
  rw [isBlock, f.kind?_plain, isBlock]

/-- The depths of children depend on kinds and slots. -/
@[simp] theorem childDepth_plain (kind : Kind) (node child : NodeIndex) (depth : Nat) :
    childDepth f.plain kind node child depth = childDepth f kind node child depth := by
  cases kind <;> simp only [childDepth, isBlock_plain, Forest.child_plain]

@[simp] theorem elements_plain (items : List Link) : elements f.plain items = elements f items := by
  have last : endsWithElision f.plain items = endsWithElision f items := by
    unfold endsWithElision
    cases items.getLast? with
    | none => rfl
    | some last => simp only [Forest.kind?_plain]
  rw [elements, elements, last]

/-- The text of a node depends on its contents and on the kinds of its children. -/
@[simp] theorem ofContents_plain (c : Contents) (depth : Nat) :
    ofContents f.plain o c depth = ofContents f o c depth := by
  cases c <;> simp only [ofContents, elements_plain, ifStatement, forInLoop, whileLoop, loopBody,
    isBlock_plain, Forest.kind?_plain]

/-- **Printing in the plain forest is the same computation.** -/
theorem assembly_plain : assembly f.plain o = assembly f o := by
  have jobs : parts f.plain = parts f := by
    funext job
    rw [parts, Forest.header_plain, bind_map_left, parts]
    simp only [Header.kind_plain, Forest.below_plain, childDepth_plain]
  have recipes : recipe f.plain o = recipe f o := by
    funext job
    rw [recipe, Forest.header?_plain, recipe]
    cases f.header? job.node with
    | none => rfl
    | some h => simp only [Option.map_some, Forest.held?_plain, Forest.held?_header_plain,
        ofContents_plain, Header.kind_plain]
  rw [assembly, jobs, recipes, assembly]

end Printer

/-- The text of a tree is that in the plain forest. -/
@[simp] theorem Forest.print_plain (f : Forest) (o : PrinterOptions) (x : Link) (depth : Nat) :
    f.plain.print o x depth = f.print o x depth := by
  unfold print
  rw [checkHeight_plain, size_plain, Printer.assembly_plain]

/-! ## Taking the marks out of a record -/

namespace Json

/-- The names of the annotator's fields. -/
def markNames : List String := ["criteria", "dependencies", "change", "change-noprop"]

mutual

/-- A record without the annotator's fields, in it and in all records inside it. -/
def unmarked : Json → Json
  | .array items => .array (unmarkedItems items)
  | .object fields => .object (unmarkedFields fields)
  | value => value
termination_by structural value => value

/-- A list of records, each without the annotator's fields. -/
def unmarkedItems : List Json → List Json
  | [] => []
  | item :: rest => unmarked item :: unmarkedItems rest
termination_by structural items => items

/-- The fields of a record that are not the annotator's. -/
def unmarkedFields : List (String × Json) → List (String × Json)
  | [] => []
  | field :: rest => unmarkedField field ++ unmarkedFields rest
termination_by structural fields => fields

/-- A field of a record, unless it is one of the annotator's. -/
def unmarkedField : String × Json → List (String × Json)
  | (name, value) => if name ∈ markNames then [] else [(name, unmarked value)]
termination_by structural field => field

end

theorem unmarkedItems_eq_map (items : List Json) : unmarkedItems items = items.map unmarked := by
  induction items with
  | nil => rfl
  | cons item rest ih => rw [unmarkedItems, ih, List.map_cons]

theorem unmarkedFields_append (fields rest : List (String × Json)) :
    unmarkedFields (fields ++ rest) = unmarkedFields fields ++ unmarkedFields rest := by
  induction fields with
  | nil => rfl
  | cons field fields ih =>
    rw [List.cons_append, unmarkedFields, unmarkedFields, ih, List.append_assoc]

/-- Two records differ at most in marks. -/
def SameUnmarked (v w : Json) : Prop := v.unmarked = w.unmarked

/-- The fields differ at most in marks. -/
def FieldsUnmarked (fields fields' : List (String × Json)) : Prop :=
  unmarkedFields fields = unmarkedFields fields'

theorem FieldsUnmarked.cons {name : String} {v w : Json} {fields fields' : List (String × Json)}
    (h : v.SameUnmarked w) (rest : FieldsUnmarked fields fields') :
    FieldsUnmarked ((name, v) :: fields) ((name, w) :: fields') := by
  rw [FieldsUnmarked, unmarkedFields, unmarkedFields, unmarkedField, unmarkedField, h, rest]

theorem SameUnmarked.array {items items' : List Json} (h : List.Forall₂ SameUnmarked items items') :
    SameUnmarked (.array items) (.array items') := by
  rw [SameUnmarked, unmarked, unmarked, unmarkedItems_eq_map, unmarkedItems_eq_map]
  congr 1
  induction h with
  | nil => rfl
  | cons h _ ih => rw [List.map_cons, List.map_cons, h, ih]

end Json

namespace Interchange

open Json (SameUnmarked FieldsUnmarked unmarked unmarkedFields unmarkedFields_append)
open Recipe

/-- The trailer of a record has marks and nothing else. -/
theorem unmarkedFields_trailer (r : NodeRecord) : unmarkedFields (trailer r) = [] := rfl

theorem paired_optional (child : Link) :
    Paired SameUnmarked SameUnmarked (optional child) (optional child) := by
  unfold optional
  split
  · exact .done rfl
  · exact paired_take child

theorem paired_array (children : List Link) :
    Paired SameUnmarked SameUnmarked (array children) (array children) :=
  (paired_takeAll children).bind fun _ _ h => .done (.array h)

/-- **From records of children that differ in marks, the fields of a node differ in marks.** -/
theorem paired_ofContents (c : Contents) :
    Paired SameUnmarked FieldsUnmarked (ofContents c) (ofContents c) := by
  cases c with
  | name | stringLiteral | keywordLiteral => exact .done rfl
  | numberLiteral c =>
    obtain ⟨token, value⟩ := c
    cases token with
    | none => exact .fail _
    | some token => exact .done rfl
  | arrayLiteral c => exact (paired_array _).bind fun _ _ h => .done (.cons rfl (.cons h rfl))
  | objectLiteral c => exact (paired_array _).bind fun _ _ h => .done (.cons rfl (.cons h rfl))
  | objectProperty c =>
    refine (paired_takeRequired ..).bind fun _ _ key => ?_
    refine (paired_takeRequired ..).bind fun _ _ value => ?_
    exact .done (.cons rfl (.cons key (.cons value rfl)))
  | block c => exact (paired_array _).bind fun _ _ h => .done (.cons rfl (.cons h rfl))
  | expressionStatement c =>
    exact (paired_takeRequired ..).bind fun _ _ h => .done (.cons rfl (.cons h rfl))
  | ifStatement c =>
    refine (paired_takeRequired ..).bind fun _ _ test => ?_
    refine (paired_takeRequired ..).bind fun _ _ consequent => ?_
    refine (paired_optional _).bind fun _ _ alternate => ?_
    exact .done (.cons rfl (.cons test (.cons consequent (.cons alternate rfl))))
  | tryStatement c =>
    obtain ⟨tryBlock, catchClauses, finallyBlock, finallyPosition⟩ := c
    cases catchClauses with
    | nil => exact .fail _
    | cons first rest =>
      refine (paired_takeRequired ..).bind fun _ _ block => ?_
      refine (paired_take first).bind fun _ _ handler => ?_
      refine (paired_optional _).bind fun _ _ finalizer => ?_
      exact .done (.cons rfl (.cons block (.cons handler (.cons finalizer rfl))))
  | catchClause c =>
    refine (paired_takeRequired ..).bind fun _ _ param => ?_
    refine (paired_optional _).bind fun _ _ guard => ?_
    refine (paired_takeRequired ..).bind fun _ _ body => ?_
    exact .done (.cons rfl (.cons param (.cons guard (.cons body rfl))))
  | forInLoop c =>
    refine (paired_takeRequired ..).bind fun _ _ left => ?_
    refine (paired_takeRequired ..).bind fun _ _ right => ?_
    refine (paired_takeRequired ..).bind fun _ _ body => ?_
    exact .done (.cons rfl (.cons left (.cons right (.cons body rfl))))
  | doLoop c =>
    refine (paired_takeRequired ..).bind fun _ _ test => ?_
    refine (paired_takeRequired ..).bind fun _ _ body => ?_
    exact .done (.cons rfl (.cons test (.cons body rfl)))
  | whileLoop c =>
    refine (paired_takeRequired ..).bind fun _ _ test => ?_
    refine (paired_takeRequired ..).bind fun _ _ body => ?_
    exact .done (.cons rfl (.cons test (.cons body rfl)))

theorem paired_ofBare (kind : Kind) :
    Paired SameUnmarked FieldsUnmarked (ofBare kind) (ofBare kind) := by
  unfold ofBare
  split
  · exact .done rfl
  · exact .done rfl
  · exact paired_ofContents _

variable (f : Forest)

/-- Recording in the plain forest is recording side by side. -/
theorem paired_assembly : Assembly.Paired SameUnmarked (assembly f) (assembly f.plain) where
  node := rfl
  parts := by
    funext x
    show parts f.plain x = parts f x
    rw [parts, Forest.header_plain, bind_map_left]
    rfl
  recipe := by
    intro x
    show Paired _ _ (recipe f x) (recipe f.plain x)
    rw [recipe, recipe, Forest.header?_plain]
    cases f.header? x with
    | none => exact .fail _
    | some h =>
      have ending {fields : Recipe Json Fields}
          (h : Paired SameUnmarked FieldsUnmarked fields fields) (r r' : NodeRecord) :
          Paired SameUnmarked SameUnmarked
            (fields >>= fun known => pure (.object (known ++ trailer r)))
            (fields >>= fun known => pure (.object (known ++ trailer r'))) := by
        refine h.bind fun _ _ h => .done ?_
        rw [SameUnmarked, unmarked, unmarked, unmarkedFields_append, unmarkedFields_append,
          unmarkedFields_trailer, unmarkedFields_trailer, h]
      rw [Option.map_some]
      dsimp only
      rw [Forest.held?_plain, Forest.held?_header_plain]
      cases f.held? h with
      | none => exact ending (paired_ofBare h.kind) ..
      | some c => exact ending (paired_ofContents c) ..

end Interchange

/-- **Without marks, the record of a tree is that in the plain forest**, and so are its errors. -/
theorem Forest.unmarked_record_plain (f : Forest) (x : Link) :
    Json.unmarked <$> f.plain.record x = Json.unmarked <$> f.record x := by
  unfold record
  rw [checkHeight_plain, size_plain]
  cases f.checkHeight x with
  | error e => rfl
  | ok _ =>
    cases x with
    | none => rfl
    | some x =>
      have answers := (Interchange.paired_assembly f).run f.size x
      show Json.unmarked <$> (Interchange.assembly f.plain).run f.size x =
        Json.unmarked <$> (Interchange.assembly f).run f.size x
      cases hown : (Interchange.assembly f).run f.size x <;>
        cases hplain : (Interchange.assembly f.plain).run f.size x <;>
        rw [hown, hplain] at answers <;> cases answers
      · rfl
      · next same => exact congrArg Except.ok same.symm

end SyntaxForest
