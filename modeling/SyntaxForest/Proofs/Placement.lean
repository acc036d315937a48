import SyntaxForest.Proofs.Forms
import SyntaxForest.Proofs.Recording
import SyntaxForest.Proofs.Runs

/-!
# Where records stand

The record of a tree is one object with the records of all embedded nodes in it.  `form` says what
the fields of each record are, and so where in it the records of children stand; going down from
site to site gives the *places* of everything that is embedded (`places`).

`exists_filled` is the step that all else is made of: a record that recursion gives is filled as the
form of its node says, and what fills the sites are the records that recursion gives for the
children.  By induction on the way down, at every place stands the record of its node
(`at?_of_way`); by induction on a path, every object stands at a place (`exists_way`), except for
those in annotations, which may hold anything.
-/

namespace SyntaxForest

namespace Interchange

open Recipe
open Json (Step)

/-! ## Forms of records -/

/-- What the fields of the record of a node are, the annotator's fields apart. -/
def form (contents : Contents) : Form :=
  let typed (fields : Form) : Form :=
    ("type", .value (.string contents.kind.recordType)) :: fields
  match contents with
  | .name c => typed [("name", .value (.string c.identifier))]
  | .numberLiteral c =>
    let token := c.token.getD ""
    typed [("value", .value (numberValue token)), ("raw", .value (.string token))]
  | .stringLiteral c =>
    typed [("value", .value (.string c.value)), ("raw", .value (.string (quoted c.quote c.value)))]
  | .keywordLiteral c => (keywordFields c.keyword).map fun (name, value) => (name, .value value)
  | .arrayLiteral c => typed [("elements", .children c.elements)]
  | .objectLiteral c => typed [("properties", .children c.elements)]
  | .objectProperty c =>
    typed [("key", .child c.left), ("value", .child c.right), ("kind", .value (.string "init"))]
  | .block c => typed [("body", .children c.statements)]
  | .expressionStatement c => typed [("expression", .child c.expression)]
  | .ifStatement c =>
    typed [("test", .child c.condition), ("consequent", .child c.thenPart),
      ("alternate", .child c.elsePart)]
  | .tryStatement c =>
    typed [("block", .child c.tryBlock), ("handler", .child c.catchClauses.head?.join),
      ("finalizer", .child c.finallyBlock)]
  | .catchClause c =>
    typed [("param", .child c.varName), ("guard", .child c.guard), ("body", .child c.body)]
  | .forInLoop c =>
    typed [("left", .child c.iterator), ("right", .child c.iteratedObject),
      ("body", .child c.loop.body), ("each", .value (.bool false))]
  | .doLoop c => typed [("test", .child c.condition), ("body", .child c.loop.body)]
  | .whileLoop c => typed [("test", .child c.condition), ("body", .child c.loop.body)]

theorem nodup_form (c : Contents) : ((form c).map Prod.fst).Nodup := by
  cases c with
  | keywordLiteral c =>
    obtain ⟨keyword⟩ := c
    cases keyword <;> simp [form, keywordFields]
  | _ => simp [form]

section Filling

theorem isScalar_numberValue (token : String) : (numberValue token).isScalar := by
  unfold numberValue Json.ofBinary64
  split
  · rfl
  · split
    · split <;> rfl
    · rfl

variable {look : Link → Except TreeError Json}

theorem ok_of_bind {α β : Type} {recipe : Recipe Json α} {next : α → Recipe Json β} {result : β}
    (h : (recipe >>= next).withParts look = .ok result) :
    ∃ a, recipe.withParts look = .ok a ∧ (next a).withParts look = .ok result := by
  rw [withParts_bind] at h
  cases hr : recipe.withParts look with
  | error => rw [hr] at h; cases h
  | ok a => exact ⟨a, rfl, by rwa [hr] at h⟩

variable (absent : ∀ part, look none ≠ .ok part)
include absent

theorem fills_of_take {x : Link} {part : Json} (h : (take x).withParts look = .ok part) :
    (Entry.child x).Fills look part := by
  rw [withParts_take] at h
  cases x with
  | none => exact absurd h (absent part)
  | some x => exact h

theorem fills_of_takeRequired {kind : Kind} {slot : ChildSlot} {x : Link} {part : Json}
    (h : (takeRequired kind slot x).withParts look = .ok part) :
    (Entry.child x).Fills look part := by
  cases x with
  | none => cases h
  | some x => exact fills_of_take absent h

theorem fills_of_optional {x : Link} {part : Json} (h : (optional x).withParts look = .ok part) :
    (Entry.child x).Fills look part := by
  cases x with
  | none => exact (Except.ok.inj h).symm
  | some x => exact fills_of_take absent h

theorem fills_of_array {xs : List Link} {part : Json} (h : (array xs).withParts look = .ok part) :
    (Entry.children xs).Fills look part := by
  have items (xs : List Link) (parts : List Json)
      (h : (takeAll xs).withParts look = .ok parts) :
      List.Forall₂ (fun x item => ∃ y, x = some y ∧ look (some y) = .ok item) xs parts := by
    induction xs generalizing parts with
    | nil => cases h; exact .nil
    | cons x xs ih =>
      obtain ⟨part, hpart, h⟩ := ok_of_bind h
      obtain ⟨rest, hrest, h⟩ := ok_of_bind h
      cases h
      rw [withParts_take] at hpart
      refine .cons ?_ (ih rest hrest)
      cases x with
      | none => exact absurd hpart (absent part)
      | some x => exact ⟨x, rfl, hpart⟩
  obtain ⟨parts, hparts, h⟩ := ok_of_bind h
  cases h
  exact ⟨parts, rfl, items xs parts hparts⟩

/-- **What a recipe puts into a record is what the form says.** -/
theorem filled_of_ofContents (c : Contents) {own : Fields}
    (run : (ofContents c).withParts look = .ok own) : (form c).Filled look own := by
  cases c with
  | name c =>
    cases run
    exact .value rfl <| .value rfl .nil
  | numberLiteral c =>
    obtain ⟨token, value⟩ := c
    cases token with
    | none => cases run
    | some token =>
      cases run
      exact .value rfl <| .value (isScalar_numberValue token) <| .value rfl .nil
  | stringLiteral c =>
    cases run
    exact .value rfl <| .value rfl <| .value rfl .nil
  | keywordLiteral c =>
    obtain ⟨keyword⟩ := c
    cases run
    cases keyword with
    | true | false | null => exact .value rfl <| .value rfl <| .value rfl .nil
    | this => exact .value rfl .nil
  | arrayLiteral c =>
    obtain ⟨elements, helements, run⟩ := ok_of_bind run
    cases run
    exact .value rfl <| .cons (fills_of_array absent helements) .nil
  | objectLiteral c =>
    obtain ⟨properties, hproperties, run⟩ := ok_of_bind run
    cases run
    exact .value rfl <| .cons (fills_of_array absent hproperties) .nil
  | objectProperty c =>
    obtain ⟨key, hkey, run⟩ := ok_of_bind run
    obtain ⟨value, hvalue, run⟩ := ok_of_bind run
    cases run
    exact .value rfl <| .cons (fills_of_takeRequired absent hkey) <|
      .cons (fills_of_takeRequired absent hvalue) <| .value rfl .nil
  | block c =>
    obtain ⟨body, hbody, run⟩ := ok_of_bind run
    cases run
    exact .value rfl <| .cons (fills_of_array absent hbody) .nil
  | expressionStatement c =>
    obtain ⟨expression, hexpression, run⟩ := ok_of_bind run
    cases run
    exact .value rfl <| .cons (fills_of_takeRequired absent hexpression) .nil
  | ifStatement c =>
    obtain ⟨test, htest, run⟩ := ok_of_bind run
    obtain ⟨consequent, hconsequent, run⟩ := ok_of_bind run
    obtain ⟨alternate, halternate, run⟩ := ok_of_bind run
    cases run
    exact .value rfl <| .cons (fills_of_takeRequired absent htest) <|
      .cons (fills_of_takeRequired absent hconsequent) <|
      .cons (fills_of_optional absent halternate) .nil
  | tryStatement c =>
    obtain ⟨tryBlock, catchClauses, finallyBlock, finallyPosition⟩ := c
    cases catchClauses with
    | nil => cases run
    | cons first others =>
      obtain ⟨block, hblock, run⟩ := ok_of_bind run
      obtain ⟨handler, hhandler, run⟩ := ok_of_bind run
      obtain ⟨finalizer, hfinalizer, run⟩ := ok_of_bind run
      cases run
      exact .value rfl <| .cons (fills_of_takeRequired absent hblock) <|
        .cons (fills_of_take absent hhandler) <|
        .cons (fills_of_optional absent hfinalizer) .nil
  | catchClause c =>
    obtain ⟨param, hparam, run⟩ := ok_of_bind run
    obtain ⟨guard, hguard, run⟩ := ok_of_bind run
    obtain ⟨body, hbody, run⟩ := ok_of_bind run
    cases run
    exact .value rfl <| .cons (fills_of_takeRequired absent hparam) <|
      .cons (fills_of_optional absent hguard) <|
      .cons (fills_of_takeRequired absent hbody) .nil
  | forInLoop c =>
    obtain ⟨left, hleft, run⟩ := ok_of_bind run
    obtain ⟨right, hright, run⟩ := ok_of_bind run
    obtain ⟨body, hbody, run⟩ := ok_of_bind run
    cases run
    exact .value rfl <| .cons (fills_of_takeRequired absent hleft) <|
      .cons (fills_of_takeRequired absent hright) <|
      .cons (fills_of_takeRequired absent hbody) <| .value rfl .nil
  | doLoop c =>
    obtain ⟨test, htest, run⟩ := ok_of_bind run
    obtain ⟨body, hbody, run⟩ := ok_of_bind run
    cases run
    exact .value rfl <| .cons (fills_of_takeRequired absent htest) <|
      .cons (fills_of_takeRequired absent hbody) .nil
  | whileLoop c =>
    obtain ⟨test, htest, run⟩ := ok_of_bind run
    obtain ⟨body, hbody, run⟩ := ok_of_bind run
    cases run
    exact .value rfl <| .cons (fills_of_takeRequired absent htest) <|
      .cons (fills_of_takeRequired absent hbody) .nil

end Filling

/-- What the fields of a node without contents are. -/
def bareForm (kind : Kind) : Form :=
  match kind, Contents.fresh? kind with
  | .stringLiteral, _ | _, none => [("type", .value (.string kind.recordType))]
  | _, some c => form c

/-- A node without contents is recorded by its type alone, or as a new node is. -/
theorem bare_cases (kind : Kind) :
    (ofBare kind = pure [("type", .string kind.recordType)] ∧
      bareForm kind = [("type", .value (.string kind.recordType))]) ∨
    ∃ c, Contents.fresh? kind = some c ∧ ofBare kind = ofContents c ∧ bareForm kind = form c := by
  cases kind with
  | stringLiteral | emptyExpression | emptyStatement => exact .inl ⟨rfl, rfl⟩
  | _ => exact .inr ⟨_, rfl, rfl, rfl⟩

theorem filled_of_ofBare {look : Link → Except TreeError Json}
    (absent : ∀ part, look none ≠ .ok part) (kind : Kind) {own : Fields}
    (run : (ofBare kind).withParts look = .ok own) : (bareForm kind).Filled look own := by
  obtain ⟨typed, hform⟩ | ⟨c, -, fresh, hform⟩ := bare_cases kind
  · rw [typed] at run
    cases run
    exact hform ▸ .value rfl .nil
  · rw [fresh] at run
    exact hform ▸ filled_of_ofContents absent c run

theorem nodup_bareForm (kind : Kind) : ((bareForm kind).map Prod.fst).Nodup := by
  obtain ⟨-, hform⟩ | ⟨c, -, -, hform⟩ := bare_cases kind
  · rw [hform]
    exact List.nodup_singleton _
  · rw [hform]
    exact nodup_form c

variable (f : Forest)

/-- What the fields of the record of a node are, the annotator's fields apart. -/
def formAt (x : NodeIndex) : Form :=
  match f.header? (some x) with
  | none => []
  | some h =>
    match f.held? h with
    | some c => form c
    | none => bareForm h.kind

variable {f} {x : NodeIndex}

theorem nodup_formAt (x : NodeIndex) : ((formAt f x).map Prod.fst).Nodup := by
  unfold formAt
  split
  · exact List.nodup_nil
  · split
    · exact nodup_form _
    · exact nodup_bareForm _

variable {records : NodeIndex → Except TreeError Json} {value : Json}

/-- **The record of a node is filled as its form says, with the records of children, and ends with
the annotator's fields.** -/
theorem exists_filled (hrecords : (assembly f).Recursive records) (h : records x = .ok value) :
    ∃ look own, value = .object (own ++ trailer ((f.record? (some x)).getD {})) ∧
      (formAt f x).Filled look own ∧
      ∀ y part, look (some y) = .ok part → records y = .ok part := by
  cases hh : f.header? (some x) with
  | none =>
    rw [hrecords x, Assembly.round, show (assembly f).parts x = _ from parts_error hh] at h
    cases h
  | some header =>
    rw [hrecords x, Assembly.round_of_parts (parts_eq hh)] at h
    cases hfound : (assembly f).gather records
        ((((f.held? header).map embedded).getD []).filterMap id) with
    | error => rw [hfound] at h; cases h
    | ok found =>
      rw [hfound] at h
      have run : (recipe f x).withParts (Assembly.lookIn found) = .ok value := h
      rw [recipe, hh] at run
      have absent (part : Json) : Assembly.lookIn found none ≠ .ok part := by
        rintro ⟨⟩
      have inner (y : NodeIndex) (part : Json) (hy : Assembly.lookIn found (some y) = .ok part) :
          records y = .ok part := by
        obtain ⟨z, -, rfl, hz⟩ := Assembly.exists_of_lookIn hfound hy
        exact hz
      rw [formAt, hh]
      dsimp only at run ⊢
      cases hc : f.held? header with
      | some c =>
        simp only [hc] at run
        obtain ⟨own, hown, run⟩ := ok_of_bind run
        exact ⟨_, own, (Except.ok.inj run).symm, filled_of_ofContents absent c hown, inner⟩
      | none =>
        simp only [hc] at run
        obtain ⟨own, hown, run⟩ := ok_of_bind run
        exact ⟨_, own, (Except.ok.inj run).symm, filled_of_ofBare absent header.kind hown, inner⟩

/-! ## Places -/

variable (f) in
/-- What is recorded directly in the record of a node that stands at a path: each child at the path
of its site. -/
def located : List Step × NodeIndex → List (List Step × NodeIndex)
  | (path, x) => (formAt f x).sites.filterMap fun (site, child) => child.map (path ++ site, ·)

variable (f) in
/-- Where in the record of a node the records of the embedded nodes stand. -/
def places (x : NodeIndex) : List (List Step × NodeIndex) :=
  Traversal.unfolding (located f) f.size ([], x)

theorem mem_located_iff {path path' : List Step} {y : NodeIndex} :
    (path', y) ∈ located f (path, x) ↔
      ∃ site, path' = path ++ site ∧ (site, some y) ∈ (formAt f x).sites := by
  simp only [located, List.mem_filterMap, Prod.exists, Option.map_eq_some_iff, Prod.mk.injEq]
  constructor
  · rintro ⟨site, _, hsite, _, rfl, rfl, rfl⟩
    exact ⟨site, rfl, hsite⟩
  · rintro ⟨site, rfl, hsite⟩
    exact ⟨site, _, hsite, y, rfl, rfl, rfl⟩

/-- **A place in the record of a node is where the record of its node stands.** -/
theorem at?_of_way (hrecords : (assembly f).Recursive records) (h : records x = .ok value)
    {place : List Step × NodeIndex}
    (way : Relation.ReflTransGen (fun a b => b ∈ located f a) ([], x) place) :
    ∃ inner, value.at? place.1 = some inner ∧ records place.2 = .ok inner := by
  induction way with
  | refl => exact ⟨value, Json.at?_nil value, h⟩
  | @tail place place' _ step ih =>
    obtain ⟨outer, hat, houter⟩ := ih
    obtain ⟨look, own, rfl, filled, parts⟩ := exists_filled hrecords houter
    obtain ⟨site, hpath, hsite⟩ := mem_located_iff.mp step
    obtain ⟨part, hpart, hinner⟩ := filled.at?_site (nodup_formAt place.2) _ hsite
    refine ⟨part, ?_, parts _ _ hpart⟩
    rw [hpath, Json.at?_append, hat]
    exact hinner

/-- The path does not go into annotations. -/
def outside (path : List Step) : Prop :=
  ∀ step ∈ path, step ≠ .field "criteria" ∧ step ≠ .field "dependencies"

/-- **At each place of a node stands its record**, filled as the form of the node says. -/
theorem exists_filled_of_place (hf : f.Acyclic) {root : NodeIndex}
    (recorded : f.record (some root) = .ok value) {path : List Step}
    (place : (path, x) ∈ places f root) : ∃ look own,
      value.at? path = some (.object (own ++ trailer ((f.record? (some x)).getD {}))) ∧
        (formAt f x).Filled look own := by
  obtain ⟨records, hrecords, -⟩ := (follows f).existsUnique_recursive hf
  rw [Forest.record_eq] at recorded
  have result := (follows f).resultFor_eq_ok (thorough f) hf hrecords recorded
  obtain ⟨inner, hat, hinner⟩ :=
    at?_of_way hrecords result (Traversal.reaches_of_mem_unfolding place)
  obtain ⟨look, own, rfl, filled, -⟩ := exists_filled hrecords hinner
  exact ⟨look, own, hat, filled⟩

/-- A node stands at the front of its own record. -/
theorem mem_places_self (f : Forest) (x : NodeIndex) : ([], x) ∈ places f x := by
  unfold places
  cases f.size <;> exact List.mem_cons_self

end Interchange

theorem Forest.exists_record {f : Forest} {x : Link} (h : (f.record x).toBool) :
    ∃ value, f.record x = .ok value := by
  cases recorded : f.record x with
  | ok value => exact ⟨value, rfl⟩
  | error => rw [recorded] at h; cases h

end SyntaxForest
