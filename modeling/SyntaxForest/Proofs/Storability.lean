import Mathlib.Data.Fintype.Card
import SyntaxForest.Proofs.Runs
import SyntaxForest.Proofs.Scaling
import SyntaxForest.Proofs.StoredForm

/-!
# Forests that can be stored

Which forests can be stored is said by widths and without a word about texts (`Forest.Storable`).
The forests that there are can be stored, however they came about:

* `Forest.storable_of_ofText?` — whatever is read can be stored, be it a text that was written or
  any other;
* `Reached.storable` — a forest that commands lead to can be stored if there are not too many nodes
  in it, for its links name nodes.

The readers check the width of every integer where they read it, so the first half goes through them
one by one.  Of floats they check nothing; that a float which is read is finite comes from the way
it is computed.
-/

namespace SyntaxForest

open Json (Raw)

/-- A forest can be stored: its places have 32 bits, of which one pattern stands for none, its
identities have 64, and its annotations can be stored. -/
structure Forest.Storable (f : Forest) : Prop where
  header : ∀ h ∈ f.headers, Stored.Fits h.entry
  record : ∀ r ∈ f.records, r.Storable
  contents : ∀ k i c, f.pools.get? k i = some c → c.Fits

/-- What a reader made of a list, it made of members. -/
theorem exists_of_mapM {α β : Type} {read : α → Option β} {xs : List α} {ys : List β}
    (h : xs.mapM read = some ys) {y : β} (hy : y ∈ ys) : ∃ x ∈ xs, read x = some y := by
  induction xs generalizing ys with
  | nil =>
    cases h
    cases hy
  | cons x xs ih =>
    rw [List.mapM_cons, Option.bind_eq_bind, Option.bind_eq_some_iff] at h
    obtain ⟨first, read_first, h⟩ := h
    obtain ⟨others, read_others, h⟩ := Option.bind_eq_some_iff.mp h
    cases h
    rcases List.mem_cons.mp hy with rfl | hy
    · exact ⟨x, List.mem_cons_self, read_first⟩
    · obtain ⟨x, hx, same⟩ := ih read_others hy
      exact ⟨x, List.mem_cons_of_mem _ hx, same⟩

namespace Json

/-! ## Values -/

/-- What holds of a text if it holds of its items and of the values of its fields holds of all. -/
@[elab_as_elim]
theorem Raw.induction {motive : Raw → Prop} (null : motive .null) (bool : ∀ b, motive (.bool b))
    (number : ∀ n, motive (.number n)) (string : ∀ s, motive (.string s))
    (array : ∀ items, (∀ x ∈ items, motive x) → motive (.array items))
    (object : ∀ fields : List (Option String × Raw), (∀ field ∈ fields, motive field.2) →
      motive (.object fields)) (raw : Raw) : motive raw :=
  @Raw.rec motive (fun items => ∀ x ∈ items, motive x)
    (fun fields => ∀ field ∈ fields, motive field.2) (fun field => motive field.2)
    null bool number string array object
    (fun _ h => absurd h List.not_mem_nil) (fun _ _ hx hxs => List.forall_mem_cons.mpr ⟨hx, hxs⟩)
    (fun _ h => absurd h List.not_mem_nil) (fun _ _ hx hxs => List.forall_mem_cons.mpr ⟨hx, hxs⟩)
    (fun _ _ h => h) raw

/-- The fields after an insertion are the new one and some that were there. -/
theorem mem_insert {key : String} {value : Json} {known : List (String × Json)}
    {field : String × Json} (h : field ∈ insert key value known) :
    field = (key, value) ∨ field ∈ known := by
  induction known with
  | nil => exact .inl (List.mem_singleton.mp h)
  | cons other known ih =>
    rw [insert] at h
    split at h
    · next same =>
      subst same
      rcases List.mem_cons.mp h with rfl | h
      · exact .inl rfl
      · exact .inr (List.mem_cons_of_mem _ h)
    · rcases List.mem_cons.mp h with rfl | h
      · exact .inr List.mem_cons_self
      · exact (ih h).imp id (List.mem_cons_of_mem _)

/-- A key that is inserted again takes the place of the field that it had. -/
theorem nodup_insert {known : List (String × Json)} (distinct : (known.map Prod.fst).Nodup)
    (key : String) (value : Json) : ((insert key value known).map Prod.fst).Nodup := by
  induction known with
  | nil => exact List.pairwise_singleton _ key
  | cons other known ih =>
    rw [List.map_cons, List.nodup_cons] at distinct
    rw [insert]
    split
    · next same =>
      subst same
      exact List.nodup_cons.mpr distinct
    · next differs =>
      refine List.nodup_cons.mpr ⟨fun mem => ?_, ih distinct.2⟩
      obtain ⟨field, mem, same⟩ := List.mem_map.mp mem
      rcases mem_insert mem with rfl | mem
      · exact differs same.symm
      · exact distinct.1 (List.mem_map.mpr ⟨field, mem, same⟩)

/-- An object that is put together has each of its keys once, and the values are those that were
put in. -/
theorem insertAll_spec (fields : List (String × Json)) :
    ((insertAll fields).map Prod.fst).Nodup ∧ ∀ field ∈ insertAll fields, field ∈ fields := by
  have behind (fields known : List (String × Json)) (distinct : (known.map Prod.fst).Nodup) :
      ((fields.foldl (fun known field => insert field.1 field.2 known) known).map Prod.fst).Nodup ∧
        ∀ field ∈ fields.foldl (fun known field => insert field.1 field.2 known) known,
          field ∈ known ∨ field ∈ fields := by
    induction fields generalizing known with
    | nil => exact ⟨distinct, fun field mem => .inl mem⟩
    | cons first fields ih =>
      obtain ⟨nodup, among⟩ := ih _ (nodup_insert distinct first.1 first.2)
      refine ⟨nodup, fun field mem => ?_⟩
      rcases among field mem with mem | mem
      · rcases mem_insert mem with rfl | mem
        · exact .inr List.mem_cons_self
        · exact .inl mem
      · exact .inr (List.mem_cons_of_mem _ mem)
  have spec := behind fields [] List.nodup_nil
  exact ⟨spec.1, fun field mem => (spec.2 field mem).resolve_left List.not_mem_nil⟩

/-- An integer that is read fits 64 bits, and a float that is read is finite. -/
theorem Numeral.storable_of_value? {n : Numeral} {value : Json} (h : n.value? = some value) :
    value.Storable := by
  unfold value? at h
  split at h
  · next i read =>
    have fits := (Option.filter_eq_some_iff.mp read).2
    cases h
    exact .int (by simpa using fits)
  · obtain ⟨x, read, rfl⟩ := Option.map_eq_some_iff.mp h
    exact .float (isFinite_of_float? read)

/-- Items that are read can be stored if whatever is read of each can be. -/
theorem storable_of_values? {items : List Raw}
    (h : ∀ x ∈ items, ∀ value, x.value? = some value → value.Storable) {values : List Json}
    (read : Raw.values? items = some values) : ∀ value ∈ values, value.Storable := by
  induction items generalizing values with
  | nil =>
    cases read
    exact nofun
  | cons x xs ih =>
    rw [List.forall_mem_cons] at h
    unfold Raw.values? at read
    split at read
    · next value values first others =>
      cases read
      exact List.forall_mem_cons.mpr ⟨h.1 _ first, ih h.2 others⟩
    · cases read

/-- The same of fields. -/
theorem storable_of_fields? {items : List (Option String × Raw)}
    (h : ∀ x ∈ items, ∀ value, x.2.value? = some value → value.Storable)
    {fields : List (String × Json)} (read : Raw.fields? items = some fields) :
    ∀ field ∈ fields, field.2.Storable := by
  induction items generalizing fields with
  | nil =>
    cases read
    exact nofun
  | cons x xs ih =>
    rw [List.forall_mem_cons] at h
    unfold Raw.fields? at read
    split at read
    · next field fields first others =>
      cases read
      refine List.forall_mem_cons.mpr ⟨?_, ih h.2 others⟩
      obtain ⟨key, raw⟩ := x
      unfold Raw.field? at first
      split at first
      · next value _ read =>
        cases first
        exact h.1 _ read
      · cases first
    · cases read

/-- **A value that is read can be stored.** -/
theorem Raw.storable_of_value? {raw : Raw} {value : Json} (h : raw.value? = some value) :
    value.Storable := by
  induction raw using Raw.induction generalizing value with
  | null =>
    cases h
    exact .null
  | bool b =>
    cases h
    exact .bool b
  | number n => exact Numeral.storable_of_value? h
  | string s =>
    obtain ⟨s, -, rfl⟩ := Option.map_eq_some_iff.mp h
    exact .string s
  | array items ih =>
    obtain ⟨values, read, rfl⟩ := Option.map_eq_some_iff.mp h
    exact .array (storable_of_values? (fun x hx value => ih x hx) read)
  | object fields ih =>
    obtain ⟨fields, read, rfl⟩ := Option.map_eq_some_iff.mp h
    have spec := insertAll_spec fields
    have storable := storable_of_fields? (fun x hx value => ih x hx) read
    exact .object (fun field mem => storable field (spec.2 field mem)) spec.1

end Json

namespace Stored

/-! ## Links -/

/-- What stands in a list that is read was read from an item. -/
theorem exists_of_list? {α : Type} {read : Raw → Option α} {raw : Raw} {xs : List α}
    (h : raw.list? read = some xs) {x : α} (hx : x ∈ xs) : ∃ item, read item = some x := by
  unfold Raw.list? at h
  split at h
  · obtain ⟨item, -, found⟩ := exists_of_mapM h hx
    exact ⟨item, found⟩
  · cases h

theorem required_eq_some {α : Type} {read : Raw → Option α} {field : Option Raw} {a : α} :
    required read field = some a ↔ ∃ raw, field = some raw ∧ read raw = some a :=
  Option.bind_eq_some_iff

/-- An integer that is read within a range is in it. -/
theorem intIn?_eq_some {least greatest n : Int} {raw : Raw}
    (h : raw.intIn? least greatest = some n) : least ≤ n ∧ n ≤ greatest := by
  unfold Raw.intIn? at h
  split at h
  · have fits := (Option.filter_eq_some_iff.mp h).2
    simpa using fits
  · cases h

/-- A place that is read fits 32 bits, for the greatest number of 32 bits is read as no place. -/
theorem fits_of_place? {raw : Raw} {x : Link} (h : place? raw = some x) : Fits x := by
  obtain ⟨n, read, rfl⟩ := Option.map_eq_some_iff.mp h
  have range := intIn?_eq_some read
  intro place mem
  split at mem
  · cases mem
  · cases mem
    omega

/-- An identity that is read fits 64 bits. -/
theorem lt_of_id? {raw : Raw} {n : Nat} (h : id? raw = some n) : n < 2 ^ 64 := by
  obtain ⟨i, read, rfl⟩ := Option.map_eq_some_iff.mp h
  have range := intIn?_eq_some read
  omega

/-- What is read from the fields of a record was read from some fields. -/
theorem exists_of_record? {α : Type} {names : List String} {needed : Nat} {raw : Raw}
    {next : List (Option Raw) → Option α} {a : α}
    (h : (raw.record? names needed >>= next) = some a) : ∃ fields, next fields = some a := by
  obtain ⟨fields, -, h⟩ := Option.bind_eq_some_iff.mp h
  exact ⟨fields, h⟩

/-- The links in a list of children that is read fit. -/
theorem fits_of_links? {raw : Raw} {xs : List Link} (h : links? raw = some xs) :
    ∀ x ∈ xs, Fits x := by
  obtain ⟨fields, h⟩ := exists_of_record? h
  split at h
  · obtain ⟨raw, -, h⟩ := required_eq_some.mp h
    intro x hx
    obtain ⟨item, read⟩ := exists_of_list? h hx
    exact fits_of_place? read
  · cases h

/-- A link that a record must have fits. -/
theorem fits_of_required {field : Option Raw} {x : Link} (h : required place? field = some x) :
    Fits x := by
  obtain ⟨raw, -, read⟩ := required_eq_some.mp h
  exact fits_of_place? read

/-- The same of a list of children that a record must have. -/
theorem fits_of_required_links {field : Option Raw} {xs : List Link}
    (h : required links? field = some xs) : ∀ x ∈ xs, Fits x := by
  obtain ⟨raw, -, read⟩ := required_eq_some.mp h
  exact fits_of_links? read

/-! ## Contents -/

/-- The elements of an array that is read fit; its other fields have no width to keep to. -/
theorem fits_of_arrayLiteral? {raw : Raw} {c : Contents.ArrayLiteral}
    (h : arrayLiteral? raw = some c) : (Contents.arrayLiteral c).Fits := by
  obtain ⟨fields, h⟩ := exists_of_record? h
  split at h
  · simp only [Option.bind_eq_bind, Option.bind_eq_some_iff] at h
    obtain ⟨_, elements, _, -, _, -, _, -, ⟨⟩⟩ := h
    exact fits_of_required_links elements
  · cases h

theorem fits_of_objectLiteral? {raw : Raw} {c : Contents.ObjectLiteral}
    (h : objectLiteral? raw = some c) : (Contents.objectLiteral c).Fits := by
  obtain ⟨fields, h⟩ := exists_of_record? h
  split at h
  · simp only [Option.bind_eq_bind, Option.bind_eq_some_iff] at h
    obtain ⟨_, elements, _, -, ⟨⟩⟩ := h
    exact fits_of_required_links elements
  · cases h

theorem fits_of_objectProperty? {raw : Raw} {c : Contents.ObjectProperty}
    (h : objectProperty? raw = some c) : (Contents.objectProperty c).Fits := by
  obtain ⟨fields, h⟩ := exists_of_record? h
  split at h
  · simp only [Option.bind_eq_bind, Option.bind_eq_some_iff] at h
    obtain ⟨_, left, _, right, ⟨⟩⟩ := h
    simp [Contents.Fits, Contents.links, fits_of_required left, fits_of_required right]
  · cases h

theorem fits_of_block? {raw : Raw} {c : Contents.Block}
    (h : block? raw = some c) : (Contents.block c).Fits := by
  obtain ⟨fields, h⟩ := exists_of_record? h
  split at h
  · simp only [Option.bind_eq_bind, Option.bind_eq_some_iff] at h
    obtain ⟨_, statements, ⟨⟩⟩ := h
    exact fits_of_required_links statements
  · cases h

theorem fits_of_expressionStatement? {raw : Raw} {c : Contents.ExpressionStatement}
    (h : expressionStatement? raw = some c) : (Contents.expressionStatement c).Fits := by
  obtain ⟨fields, h⟩ := exists_of_record? h
  split at h
  · simp only [Option.bind_eq_bind, Option.bind_eq_some_iff] at h
    obtain ⟨_, expression, ⟨⟩⟩ := h
    simp [Contents.Fits, Contents.links, fits_of_required expression]
  · cases h

theorem fits_of_ifStatement? {raw : Raw} {c : Contents.IfStatement}
    (h : ifStatement? raw = some c) : (Contents.ifStatement c).Fits := by
  obtain ⟨fields, h⟩ := exists_of_record? h
  split at h
  · simp only [Option.bind_eq_bind, Option.bind_eq_some_iff] at h
    obtain ⟨_, condition, _, thenPart, _, elsePart, _, -, _, -, _, -, ⟨⟩⟩ := h
    simp [Contents.Fits, Contents.links, fits_of_required condition, fits_of_required thenPart,
      fits_of_required elsePart]
  · cases h

/-- Block, handlers and what is done in every case are all the links of a `try`. -/
theorem fits_of_tryStatement? {raw : Raw} {c : Contents.TryStatement}
    (h : tryStatement? raw = some c) : (Contents.tryStatement c).Fits := by
  obtain ⟨fields, h⟩ := exists_of_record? h
  split at h
  · simp only [Option.bind_eq_bind, Option.bind_eq_some_iff] at h
    obtain ⟨_, tryBlock, _, catchClauses, _, finallyBlock, _, -, ⟨⟩⟩ := h
    have clauses := fits_of_required_links catchClauses
    have behind := List.forall_mem_append.mpr
      ⟨clauses, List.forall_mem_singleton.mpr (fits_of_required finallyBlock)⟩
    exact List.forall_mem_cons.mpr ⟨fits_of_required tryBlock, behind⟩
  · cases h

theorem fits_of_catchClause? {raw : Raw} {c : Contents.CatchClause}
    (h : catchClause? raw = some c) : (Contents.catchClause c).Fits := by
  obtain ⟨fields, h⟩ := exists_of_record? h
  split at h
  · simp only [Option.bind_eq_bind, Option.bind_eq_some_iff] at h
    obtain ⟨_, varName, _, guard, _, body, _, -, _, -, _, -, ⟨⟩⟩ := h
    simp [Contents.Fits, Contents.links, fits_of_required varName, fits_of_required guard,
      fits_of_required body]
  · cases h

/-- What all loops share is a record of its own, and its one link is the body. -/
theorem fits_of_loop? {field : Option Raw} {c : Contents.Loop}
    (h : required loop? field = some c) : Fits c.body := by
  obtain ⟨raw, -, h⟩ := required_eq_some.mp h
  obtain ⟨fields, h⟩ := exists_of_record? h
  split at h
  · simp only [Option.bind_eq_bind, Option.bind_eq_some_iff] at h
    obtain ⟨_, body, _, -, _, -, _, -, ⟨⟩⟩ := h
    exact fits_of_required body
  · cases h

theorem fits_of_forInLoop? {raw : Raw} {c : Contents.ForInLoop}
    (h : forInLoop? raw = some c) : (Contents.forInLoop c).Fits := by
  obtain ⟨fields, h⟩ := exists_of_record? h
  split at h
  · simp only [Option.bind_eq_bind, Option.bind_eq_some_iff] at h
    obtain ⟨_, loop, _, iterator, _, iteratedObject, _, -, _, -, _, -, ⟨⟩⟩ := h
    simp [Contents.Fits, Contents.links, fits_of_loop? loop, fits_of_required iterator,
      fits_of_required iteratedObject]
  · cases h

theorem fits_of_doLoop? {raw : Raw} {c : Contents.DoLoop}
    (h : doLoop? raw = some c) : (Contents.doLoop c).Fits := by
  obtain ⟨fields, h⟩ := exists_of_record? h
  split at h
  · simp only [Option.bind_eq_bind, Option.bind_eq_some_iff] at h
    obtain ⟨_, loop, _, condition, _, -, ⟨⟩⟩ := h
    simp [Contents.Fits, Contents.links, fits_of_loop? loop, fits_of_required condition]
  · cases h

theorem fits_of_whileLoop? {raw : Raw} {c : Contents.WhileLoop}
    (h : whileLoop? raw = some c) : (Contents.whileLoop c).Fits := by
  obtain ⟨fields, h⟩ := exists_of_record? h
  split at h
  · simp only [Option.bind_eq_bind, Option.bind_eq_some_iff] at h
    obtain ⟨_, loop, _, condition, ⟨⟩⟩ := h
    simp [Contents.Fits, Contents.links, fits_of_loop? loop, fits_of_required condition]
  · cases h

/-- The value of a number that is read is finite: no text is read as an infinity or a not-number. -/
theorem isFinite_of_numberLiteral? {raw : Raw} {c : Contents.NumberLiteral}
    (h : numberLiteral? raw = some c) : c.value.isFinite := by
  obtain ⟨fields, h⟩ := exists_of_record? h
  split at h
  · simp only [Option.bind_eq_bind, Option.bind_eq_some_iff] at h
    obtain ⟨_, -, _, value, ⟨⟩⟩ := h
    obtain ⟨raw, -, read⟩ := required_eq_some.mp value
    unfold Raw.float? at read
    split at read
    · exact Json.Numeral.isFinite_of_float? read
    · cases read
  · cases h

/-! ## Headers and records -/

/-- The entry that a header names is a place like others. -/
theorem fits_of_header? {raw : Raw} {h : Header} (read : header? raw = some h) : Fits h.entry := by
  obtain ⟨fields, read⟩ := exists_of_record? read
  split at read
  · simp only [Option.bind_eq_bind, Option.bind_eq_some_iff] at read
    obtain ⟨_, -, _, -, _, -, _, entry, ⟨⟩⟩ := read
    exact fits_of_required entry
  · cases read

/-- The records of an annotation set that is read can be stored. -/
theorem storable_of_optional_annotations? {field : Option Raw} {found : Option AnnotationSet}
    (h : optional annotations? field = some found) :
    ∀ set, found = some set → ∀ value ∈ set.records, value.Storable := by
  rintro set rfl value among
  unfold optional at h
  split at h
  · cases h
  · unfold Raw.optional? at h
    split at h
    · cases h
    · obtain ⟨_, whole, ⟨⟩⟩ := Option.map_eq_some_iff.mp h
      obtain ⟨records, items, rfl⟩ := Option.map_eq_some_iff.mp whole
      obtain ⟨item, read⟩ := exists_of_list? items among
      exact Raw.storable_of_value? read

/-- A record that is read has a parent and an identity that fit, and annotations that were read. -/
theorem storable_of_record? {raw : Raw} {r : NodeRecord} (h : record? raw = some r) :
    r.Storable := by
  obtain ⟨fields, h⟩ := exists_of_record? h
  split at h
  · simp only [Option.bind_eq_bind, Option.bind_eq_some_iff] at h
    obtain ⟨_, parent, _, id, _, -, _, -, _, -, _, criteria, _, dependencies, _, -, _, -, ⟨⟩⟩ := h
    obtain ⟨_, -, id⟩ := required_eq_some.mp id
    refine ⟨fits_of_required parent, lt_of_id? id, fun attachment set attached => ?_⟩
    cases attachment with
    | criteria => exact storable_of_optional_annotations? criteria set attached
    | dependencies => exact storable_of_optional_annotations? dependencies set attached
  · cases h

/-! ## Forests -/

/-- What stands in an array that is read was read from an item. -/
theorem exists_of_array? {α : Type} {read : Raw → Option α} {field : Option Raw} {xs : Array α}
    (h : array? read field = some xs) {x : α} (hx : x ∈ xs) : ∃ raw, read raw = some x := by
  obtain ⟨items, found, rfl⟩ := Option.map_eq_some_iff.mp h
  obtain ⟨raw, -, found⟩ := required_eq_some.mp found
  exact exists_of_list? found (List.mem_toArray.mp hx)

/-- What holds of whatever is read holds of the contents in a pool that was read. -/
theorem of_array? {α : Type} {read : Raw → Option α} {field : Option Raw} {pool : Array α}
    (h : array? read field = some pool) {wrap : α → Contents}
    (fits : ∀ raw c, read raw = some c → (wrap c).Fits) {i : Nat} {c : Contents}
    (held : pool[i]?.map wrap = some c) : c.Fits := by
  obtain ⟨a, found, rfl⟩ := Option.map_eq_some_iff.mp held
  obtain ⟨raw, read⟩ := exists_of_array? h (Array.mem_of_getElem? found)
  exact fits raw a read

/-- Each pool was read by the reader of its kind, so that its entries fit. -/
theorem storable_of_forest? {raw : Raw} {f : Forest} (h : forest? raw = some f) :
    f.Storable ∧ ∀ c ∈ f.pools.numberLiterals, c.value.isFinite := by
  obtain ⟨fields, h⟩ := exists_of_record? h
  split at h
  · obtain ⟨_, headers, h⟩ := Option.bind_eq_some_iff.mp h
    obtain ⟨_, records, h⟩ := Option.bind_eq_some_iff.mp h
    obtain ⟨_, -, h⟩ := Option.bind_eq_some_iff.mp h
    obtain ⟨_, numbers, h⟩ := Option.bind_eq_some_iff.mp h
    obtain ⟨_, -, h⟩ := Option.bind_eq_some_iff.mp h
    obtain ⟨_, -, h⟩ := Option.bind_eq_some_iff.mp h
    obtain ⟨_, arrays, h⟩ := Option.bind_eq_some_iff.mp h
    obtain ⟨_, objects, h⟩ := Option.bind_eq_some_iff.mp h
    obtain ⟨_, properties, h⟩ := Option.bind_eq_some_iff.mp h
    obtain ⟨_, blocks, h⟩ := Option.bind_eq_some_iff.mp h
    obtain ⟨_, expressions, h⟩ := Option.bind_eq_some_iff.mp h
    obtain ⟨_, ifs, h⟩ := Option.bind_eq_some_iff.mp h
    obtain ⟨_, tries, h⟩ := Option.bind_eq_some_iff.mp h
    obtain ⟨_, catches, h⟩ := Option.bind_eq_some_iff.mp h
    obtain ⟨_, forIns, h⟩ := Option.bind_eq_some_iff.mp h
    obtain ⟨_, dos, h⟩ := Option.bind_eq_some_iff.mp h
    obtain ⟨_, whiles, h⟩ := Option.bind_eq_some_iff.mp h
    cases h
    refine ⟨⟨fun h mem => ?_, fun r mem => ?_, fun k i c held => ?_⟩, fun c mem => ?_⟩
    · obtain ⟨raw, read⟩ := exists_of_array? headers mem
      exact fits_of_header? read
    · obtain ⟨raw, read⟩ := exists_of_array? records mem
      exact storable_of_record? read
    · cases k with
      | name | numberLiteral | stringLiteral | keywordLiteral =>
        obtain ⟨_, -, rfl⟩ := Option.map_eq_some_iff.mp held
        exact nofun
      | emptyExpression | emptyStatement => cases held
      | arrayLiteral => exact of_array? arrays (fun _ _ => fits_of_arrayLiteral?) held
      | objectLiteral => exact of_array? objects (fun _ _ => fits_of_objectLiteral?) held
      | objectProperty => exact of_array? properties (fun _ _ => fits_of_objectProperty?) held
      | block => exact of_array? blocks (fun _ _ => fits_of_block?) held
      | expressionStatement =>
        exact of_array? expressions (fun _ _ => fits_of_expressionStatement?) held
      | ifStatement => exact of_array? ifs (fun _ _ => fits_of_ifStatement?) held
      | tryStatement => exact of_array? tries (fun _ _ => fits_of_tryStatement?) held
      | catchClause => exact of_array? catches (fun _ _ => fits_of_catchClause?) held
      | forInLoop => exact of_array? forIns (fun _ _ => fits_of_forInLoop?) held
      | doLoop => exact of_array? dos (fun _ _ => fits_of_doLoop?) held
      | whileLoop => exact of_array? whiles (fun _ _ => fits_of_whileLoop?) held
    · obtain ⟨raw, read⟩ := exists_of_array? numbers mem
      exact isFinite_of_numberLiteral? read
  · cases h

end Stored

namespace Forest

variable {f : Forest}

/-- **What is read can be stored, and its numbers are finite.** -/
theorem storable_of_ofText? {text : String} (h : ofText? text = some f) :
    f.Storable ∧ ∀ c ∈ f.pools.numberLiterals, c.value.isFinite := by
  obtain ⟨raw, -, read⟩ := Option.bind_eq_some_iff.mp h
  exact Stored.storable_of_forest? read

/-! ## Forests that were reached -/

/-- No pool has more places than the forest has nodes. -/
theorem Intact.size_pool_le (hf : f.Intact) (k : Kind) : f.pools.size k ≤ f.size := by
  have owner (i : Fin (f.pools.size k)) : ∃ x : Fin f.size, ∃ h, f.header? (some x.1) = some h ∧
      h.entry = some i.1 := by
    obtain ⟨x, h, hx, -, entry⟩ := hf.owned i.2
    cases x with
    | none => cases hx
    | some x => exact ⟨⟨x, contains_some.mp (contains_of_header? hx)⟩, h, hx, entry⟩
  choose node header held entry using owner
  have inj : Function.Injective node := by
    intro i j same
    have one : header i = header j := Option.some.inj ((held i).symm.trans (same ▸ held j))
    exact Fin.ext (Option.some.inj ((entry i).symm.trans (one ▸ entry j)))
  simpa using Fintype.card_le_of_injective node inj

/-- Where slots, lists and parents fit together, places of 32 bits are enough for all that names a
place, as long as they are enough for the nodes. -/
theorem Linked.storable (hf : f.Linked) (few : f.size ≤ Stored.absent)
    (ids : ∀ r ∈ f.records, r.id < 2 ^ 64)
    (attached : ∀ r ∈ f.records, ∀ attachment set, r.attachment attachment = some set →
      ∀ value ∈ set.records, value.Storable) : f.Storable where
  header := by
    intro h mem i hi
    obtain ⟨x, hx⟩ := Array.mem_iff_getElem?.mp mem
    have place : i < f.pools.size h.kind := hf.intact.entry_lt (x := some x) hx hi
    exact (place.trans_le (hf.intact.size_pool_le h.kind)).trans_le few
  record := by
    intro r mem
    refine ⟨fun p hp => ?_, ids r mem, attached r mem⟩
    obtain ⟨x, hx⟩ := Array.mem_iff_getElem?.mp mem
    have parent : f.parent (some x) = some p := by
      rw [Forest.parent, show f.record? (some x) = some r from hx, Option.bind_some]
      exact hp
    exact (contains_some.mp (hf.parents parent)).trans_le few
  contents := by
    intro k i c held a ha n hn
    have place : i < f.pools.size k := Pools.isSome_get?_iff.mp (Option.isSome_of_mem held)
    obtain ⟨x, h, hx, rfl, entry⟩ := hf.intact.owned place
    have contents : f.contents? x = some c := by
      rw [contents?, hx, Option.bind_some, held?, entry, Option.bind_some, held]
    have child : n ∈ f.children x := by
      rw [children_of_contents? contents]
      exact List.mem_filterMap.mpr ⟨a, ha, hn⟩
    exact (contains_some.mp (hf.contains_of_mem_children child)).trans_le few

end Forest

/-- **A forest that was reached can be stored** if 32 bits are enough for its nodes, and 64 for the
identities that were given, and if its annotations are values. -/
theorem Reached.storable {f : Forest} {loose : List NodeIndex} (h : Reached f loose)
    (few : f.size ≤ Stored.absent) (ids : ∀ r ∈ f.records, r.id < 2 ^ 64)
    (attached : ∀ r ∈ f.records, ∀ attachment set, r.attachment attachment = some set →
      ∀ value ∈ set.records, value.Storable) : f.Storable :=
  h.tended.linked.storable few ids attached

end SyntaxForest
