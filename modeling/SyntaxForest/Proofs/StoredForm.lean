import SyntaxForest.Proofs.Readback
import SyntaxForest.Stored.Forest

/-!
# The stored form of records

A record is written as an object, and reading it asks for its fields by name.  When no name is
repeated, each field is found with what was written for it (`Json.Raw.record?_bind`), so that a
record is read if its fields are.  What is left is a lemma for each sort of record, whose reader is
named with a question mark and its writer without: `Stored.block?_block` says that the one undoes
the other.

The only condition on contents is that their links fit into 32 bits; of a number it is asked besides
that its value is finite and read back.
-/

namespace SyntaxForest

/-! ## Lists and records -/

/-- What a reader makes of all the members of a list, if it makes something of each. -/
theorem mapM_eq_some {α β : Type} {read : α → Option β} {value : α → β} {xs : List α}
    (h : ∀ x ∈ xs, read x = some (value x)) : xs.mapM read = some (xs.map value) := by
  induction xs with
  | nil => rfl
  | cons x xs ih =>
    rw [List.forall_mem_cons] at h
    rw [List.mapM_cons, h.1, ih h.2]
    rfl

/-- A reader makes nothing of a list if it makes nothing of one of its members. -/
theorem mapM_eq_none {α β : Type} {read : α → Option β} {xs : List α} {x : α} (hx : x ∈ xs)
    (h : read x = none) : xs.mapM read = none := by
  induction xs with
  | nil => cases hx
  | cons y xs ih =>
    rw [List.mapM_cons]
    rcases List.mem_cons.mp hx with rfl | hx
    · rw [h]
      rfl
    · rw [ih hx]
      cases read y <;> rfl

namespace Json.Raw

/-- The fields of an object by their keys, as a record is read from them. -/
def keyed (fields : List (String × Json)) : List (String × Raw) :=
  fields.map fun field => (field.1, field.2.raw)

/-- A key that is not repeated selects its field. -/
theorem single?_keyed {fields : List (String × Json)} {field : String × Json} (h : field ∈ fields)
    (distinct : (fields.map Prod.fst).Nodup) :
    single? field.1 (keyed fields) = some (some field.2.raw) := by
  have only : (keyed fields).filter (·.1 == field.1) = [(field.1, field.2.raw)] := by
    induction fields with
    | nil => cases h
    | cons other fields ih =>
      rw [List.map_cons, List.nodup_cons] at distinct
      rw [keyed, List.map_cons, List.filter_cons]
      rcases List.mem_cons.mp h with rfl | h
      · rw [if_pos (beq_self_eq_true _)]
        refine congrArg _ (List.filter_eq_nil_iff.mpr fun entry found same => distinct.1 ?_)
        obtain ⟨other, mem, rfl⟩ := List.mem_map.mp found
        exact List.mem_map.mpr ⟨other, mem, eq_of_beq same⟩
      · rw [if_neg fun same => distinct.1 (List.mem_map.mpr ⟨field, h, (eq_of_beq same).symm⟩)]
        exact ih h distinct.2
  rw [single?, only]

/-- **A record that was written is read field by field.** -/
theorem record?_bind {α : Type} {fields : List (String × Json)} {names : List String}
    (named : fields.map Prod.fst = names) (distinct : names.Nodup) (needed : Nat)
    (next : List (Option Raw) → Option α) :
    ((Json.object fields).raw.record? names needed >>= next) =
      next (fields.map fun field => some field.2.raw) := by
  subst named
  have keys : named? (rawFields fields) = some (keyed fields) := by
    rw [named?, rawFields_eq, List.mapM_map]
    exact mapM_eq_some fun _ _ => rfl
  have all : (fields.map Prod.fst).mapM (single? · (keyed fields)) =
      some (fields.map fun field => some field.2.raw) := by
    rw [List.mapM_map]
    exact mapM_eq_some fun _ mem => single?_keyed mem distinct
  rw [raw, record?, keys, Option.bind_eq_bind, Option.bind_eq_bind, Option.bind_some, all,
    Option.bind_some]

/-- The items of an array are read one after the other. -/
theorem list?_raw {α : Type} (read : Raw → Option α) (items : List Json) :
    list? read (Json.array items).raw = items.mapM fun item => read item.raw := by
  rw [raw, rawItems_eq, list?, List.mapM_map]
  rfl

/-- A list that was written is read if its items are. -/
theorem list?_array {α : Type} {read : Raw → Option α} {write : α → Json} {xs : List α}
    (h : ∀ x ∈ xs, read (write x).raw = some x) :
    list? read (Json.array (xs.map write)).raw = some xs := by
  rw [list?_raw, List.mapM_map]
  exact (mapM_eq_some h).trans (congrArg some (List.map_id' xs))

/-- Nothing is read of a list of which an item cannot be read. -/
theorem list?_array_eq_none {α : Type} {read : Raw → Option α} {write : α → Json} {xs : List α}
    {x : α} (hx : x ∈ xs) (h : read (write x).raw = none) :
    list? read (Json.array (xs.map write)).raw = none := by
  rw [list?_raw, List.mapM_map]
  exact mapM_eq_none hx h

/-- An integer between the bounds is read. -/
theorem intIn?_int {least greatest n : Int} (h : least ≤ n ∧ n ≤ greatest) :
    intIn? least greatest (Json.int n).raw = some n := by
  have fits : (decide (least ≤ n) && decide (n ≤ greatest)) = true := by
    rw [decide_eq_true h.1, decide_eq_true h.2, Bool.and_self]
  rw [raw, intIn?, Numeral.int?_ofInt, Option.filter_some, if_pos fits]

end Json.Raw

/-! ## What can be stored -/

/-- A link can be stored: it names no place beyond those that 32 bits have. -/
def Stored.Fits (x : Option Nat) : Prop := ∀ n ∈ x, n < absent

/-- Contents can be stored if all their links can. -/
def Contents.Fits (c : Contents) : Prop := ∀ x ∈ c.links, Stored.Fits x

/-- A record can be stored: its parent fits, its identity has 64 bits, and what was attached to it
can be stored. -/
structure NodeRecord.Storable (r : NodeRecord) : Prop where
  parent : Stored.Fits r.parent
  id : r.id < 2 ^ 64
  attached : ∀ attachment set, r.attachment attachment = some set →
    ∀ value ∈ set.records, value.Storable

namespace Stored

open Json (Raw)

/-! ## Values -/

/-- A field that is there is read. -/
@[simp] theorem required_some {α : Type} (read : Raw → Option α) (raw : Raw) :
    required read (some raw) = read raw := rfl

@[simp] theorem bool?_bool (b : Bool) : Raw.bool? (Json.bool b).raw = some b := rfl

@[simp] theorem string?_string (s : String) : Raw.string? (Json.string s).raw = some s := rfl

/-- An integer of 32 bits is written with its sign and read within its range. -/
@[simp] theorem int32?_int32 (v : Int32) : int32? (int32 v).raw = some v := by
  have range : -2 ^ 31 ≤ v.toInt ∧ v.toInt ≤ 2 ^ 31 - 1 :=
    ⟨v.le_toInt, Int.le_sub_one_of_lt v.toInt_lt⟩
  rw [int32?, int32, Raw.intIn?_int range, Option.map_some, Int32.ofInt_toInt]

/-- No place is written as the greatest number of 32 bits, which no place is that fits. -/
theorem place?_place {x : Option Nat} (h : Fits x) : place? (place x).raw = some x := by
  have range : (0 : Int) ≤ (x.getD absent : Nat) ∧ ((x.getD absent : Nat) : Int) ≤ absent := by
    cases x with
    | none => exact ⟨Int.natCast_nonneg _, Int.le_refl _⟩
    | some n => exact ⟨Int.natCast_nonneg _, Int.ofNat_le.mpr (h n rfl).le⟩
  rw [place?, place, Raw.intIn?_int range, Option.map_some]
  cases x with
  | none => rfl
  | some n =>
    have other : ¬ (n : Int) = absent := fun same => (h n rfl).ne (Int.ofNat.inj same)
    rw [Option.getD_some, if_neg other, Int.toNat_natCast]

/-- An identity that fits 64 bits is read as it was. -/
theorem id?_id {n : Nat} (h : n < 2 ^ 64) : id? (id n).raw = some n := by
  have range : (0 : Int) ≤ n ∧ (n : Int) ≤ 2 ^ 64 - 1 := by omega
  rw [id?, id, Raw.intIn?_int range, Option.map_some, Int.toNat_natCast]

/-- Kinds are written as their names, of which no two are alike. -/
@[simp] theorem kind?_kind (k : Kind) : kind? (kind k).raw = some k := Kind.ofString?_toString k

@[simp] theorem keyword?_keyword (k : Keyword) : keyword? (keyword k).raw = some k :=
  Keyword.ofName?_name k

@[simp] theorem change?_change (c : Change) : change? (change c).raw = some c :=
  Change.ofName?_name c

/-- Labels are read in their order. -/
@[simp] theorem strings?_strings (xs : List String) :
    Raw.list? Raw.string? (strings xs).raw = some xs :=
  Raw.list?_array fun _ _ => rfl

@[simp] theorem char?_character (c : Char) : Raw.char? (character c).raw = some c := by
  simp [character, Json.raw, Raw.char?, Raw.string?]

/-- A text that is missing is written as null and is missing afterwards, unlike an empty one. -/
@[simp] theorem optional_optionalString (s : Option String) :
    optional Raw.string? (some (optionalString s).raw) = some s := by
  cases s <;> rfl

/-- A list of children is read with the empty links in it, where they were. -/
theorem links?_links {xs : List Link} (h : ∀ x ∈ xs, Fits x) : links? (links xs).raw = some xs :=
  Eq.trans (Raw.record?_bind (by rfl) (by decide) 1 _)
    (Raw.list?_array fun x hx => place?_place (h x hx))

/-- A finite float is read if its text is read back. -/
theorem float?_number {x : Binary64} (finite : x.isFinite) (reads : Json.ReadsBack x) :
    Raw.float? (number x).raw = some x := by
  rw [number, Json.ofBinary64, if_pos finite, Json.raw, if_pos finite, Raw.float?]
  exact (Json.readsBack_iff finite).mp reads

/-- A number that is not finite is not read. -/
theorem float?_number_eq_none {x : Binary64} (h : ¬ x.isFinite) :
    Raw.float? (number x).raw = none := by
  rw [number, Json.ofBinary64, if_neg h]
  rfl

/-! ## Contents -/

theorem name?_name (c : Contents.Name) : name? (name c).raw = some c :=
  Raw.record?_bind (by rfl) (by decide) 1 _

/-- A number keeps its token and its value apart, and both are read. -/
theorem numberLiteral?_numberLiteral {c : Contents.NumberLiteral} (finite : c.value.isFinite)
    (reads : Json.ReadsBack c.value) : numberLiteral? (numberLiteral c).raw = some c := by
  refine Eq.trans (Raw.record?_bind (by rfl) (by decide) 2 _) ?_
  simp [float?_number finite reads]

/-- A number that is not finite makes its literal unreadable. -/
theorem numberLiteral?_eq_none {c : Contents.NumberLiteral} (h : ¬ c.value.isFinite) :
    numberLiteral? (numberLiteral c).raw = none := by
  refine Eq.trans (Raw.record?_bind (by rfl) (by decide) 2 _) ?_
  simp [float?_number_eq_none h]

theorem stringLiteral?_stringLiteral (c : Contents.StringLiteral) :
    stringLiteral? (stringLiteral c).raw = some c := by
  refine Eq.trans (Raw.record?_bind (by rfl) (by decide) 2 _) ?_
  simp

theorem keywordLiteral?_keywordLiteral (c : Contents.KeywordLiteral) :
    keywordLiteral? (keywordLiteral c).raw = some c := by
  refine Eq.trans (Raw.record?_bind (by rfl) (by decide) 1 _) ?_
  simp

/-- An array is read with its elements, its counts and its flag. -/
theorem arrayLiteral?_arrayLiteral {c : Contents.ArrayLiteral}
    (h : (Contents.arrayLiteral c).Fits) : arrayLiteral? (arrayLiteral c).raw = some c := by
  have elements : ∀ x ∈ c.elements, Fits x := h
  refine Eq.trans (Raw.record?_bind (by rfl) (by decide) 4 _) ?_
  simp [links?_links elements]

theorem objectLiteral?_objectLiteral {c : Contents.ObjectLiteral}
    (h : (Contents.objectLiteral c).Fits) : objectLiteral? (objectLiteral c).raw = some c := by
  have elements : ∀ x ∈ c.elements, Fits x := h
  refine Eq.trans (Raw.record?_bind (by rfl) (by decide) 2 _) ?_
  simp [links?_links elements]

theorem objectProperty?_objectProperty {c : Contents.ObjectProperty}
    (h : (Contents.objectProperty c).Fits) : objectProperty? (objectProperty c).raw = some c := by
  simp only [Contents.Fits, Contents.links, List.forall_mem_cons] at h
  refine Eq.trans (Raw.record?_bind (by rfl) (by decide) 2 _) ?_
  simp [place?_place, h]

theorem block?_block {c : Contents.Block} (h : (Contents.block c).Fits) :
    block? (block c).raw = some c := by
  have statements : ∀ x ∈ c.statements, Fits x := h
  refine Eq.trans (Raw.record?_bind (by rfl) (by decide) 1 _) ?_
  simp [links?_links statements]

theorem expressionStatement?_expressionStatement {c : Contents.ExpressionStatement}
    (h : (Contents.expressionStatement c).Fits) :
    expressionStatement? (expressionStatement c).raw = some c := by
  simp only [Contents.Fits, Contents.links, List.forall_mem_cons] at h
  refine Eq.trans (Raw.record?_bind (by rfl) (by decide) 1 _) ?_
  simp [place?_place, h]

theorem ifStatement?_ifStatement {c : Contents.IfStatement} (h : (Contents.ifStatement c).Fits) :
    ifStatement? (ifStatement c).raw = some c := by
  simp only [Contents.Fits, Contents.links, List.forall_mem_cons] at h
  refine Eq.trans (Raw.record?_bind (by rfl) (by decide) 6 _) ?_
  simp [place?_place, h]

theorem tryStatement?_tryStatement {c : Contents.TryStatement}
    (h : (Contents.tryStatement c).Fits) : tryStatement? (tryStatement c).raw = some c := by
  simp only [Contents.Fits, Contents.links, List.forall_mem_cons, List.forall_mem_append] at h
  obtain ⟨tryBlock, catchClauses, finallyBlock, -⟩ := h
  refine Eq.trans (Raw.record?_bind (by rfl) (by decide) 4 _) ?_
  simp [place?_place, links?_links catchClauses, tryBlock, finallyBlock]

theorem catchClause?_catchClause {c : Contents.CatchClause} (h : (Contents.catchClause c).Fits) :
    catchClause? (catchClause c).raw = some c := by
  simp only [Contents.Fits, Contents.links, List.forall_mem_cons] at h
  refine Eq.trans (Raw.record?_bind (by rfl) (by decide) 6 _) ?_
  simp [place?_place, h]

/-- What all loops share is a record of its own. -/
theorem loop?_loop {c : Contents.Loop} (h : Fits c.body) : loop? (loop c).raw = some c := by
  refine Eq.trans (Raw.record?_bind (by rfl) (by decide) 4 _) ?_
  simp [place?_place h]

theorem forInLoop?_forInLoop {c : Contents.ForInLoop} (h : (Contents.forInLoop c).Fits) :
    forInLoop? (forInLoop c).raw = some c := by
  simp only [Contents.Fits, Contents.links, List.forall_mem_cons] at h
  refine Eq.trans (Raw.record?_bind (by rfl) (by decide) 6 _) ?_
  simp [place?_place, loop?_loop, h]

theorem doLoop?_doLoop {c : Contents.DoLoop} (h : (Contents.doLoop c).Fits) :
    doLoop? (doLoop c).raw = some c := by
  simp only [Contents.Fits, Contents.links, List.forall_mem_cons] at h
  refine Eq.trans (Raw.record?_bind (by rfl) (by decide) 3 _) ?_
  simp [place?_place, loop?_loop, h]

theorem whileLoop?_whileLoop {c : Contents.WhileLoop} (h : (Contents.whileLoop c).Fits) :
    whileLoop? (whileLoop c).raw = some c := by
  simp only [Contents.Fits, Contents.links, List.forall_mem_cons] at h
  refine Eq.trans (Raw.record?_bind (by rfl) (by decide) 2 _) ?_
  simp [place?_place, loop?_loop, h]

/-! ## Headers and records -/

/-- A header is read with its range, and with its entry if it has one. -/
theorem header?_header {h : Header} (fits : Fits h.entry) : header? (header h).raw = some h := by
  refine Eq.trans (Raw.record?_bind (by rfl) (by decide) 4 _) ?_
  simp [place?_place fits]

/-- An annotation set is read with its records in their order and wording, and one without records
is told from none. -/
theorem optional_optionalAnnotations {set : Option AnnotationSet}
    (h : ∀ s, set = some s → ∀ value ∈ s.records, value.raw.value? = some value) :
    optional annotations? (some (optionalAnnotations set).raw) = some set := by
  cases set with
  | none => rfl
  | some s =>
    have records : annotations? (annotations s).raw = some s := by
      have all := (mapM_eq_some (h s rfl)).trans (congrArg some (List.map_id' s.records))
      rw [annotations?, annotations, AnnotationSet.toJson, Raw.list?_raw, all]
      rfl
    exact congrArg (Option.map some) records

theorem record?_record {r : NodeRecord} (h : r.Storable)
    (reads : ∀ attachment set, r.attachment attachment = some set →
      ∀ value ∈ set.records, value.raw.value? = some value) :
    record? (record r).raw = some r := by
  refine Eq.trans (Raw.record?_bind (by rfl) (by decide) 9 _) ?_
  have criteria := optional_optionalAnnotations (reads .criteria)
  have dependencies := optional_optionalAnnotations (reads .dependencies)
  simp only [NodeRecord.attachment] at criteria dependencies
  simp [place?_place h.parent, id?_id h.id, criteria, dependencies]

end Stored

end SyntaxForest
