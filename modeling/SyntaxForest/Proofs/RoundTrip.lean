import SyntaxForest.Proofs.Storability

/-!
# Forests that are stored and read again

`round_trip` is the theorem: a forest is read from its own text as it was, whatever is
missing in it, unless the value of a number is infinite or a not-number.  Such a value has no text
but `null`, and `null` is no number, so that the whole forest is not read; nothing else keeps a
forest from being read.  Since what is read can be stored, the forests that are read as they were
are the storable ones with finite numbers and no others (`ofText?_toText_iff`).

Two conditions go with it.  `Storable` holds what the types of this library leave open and a store
does not: the widths of places, identities and integers.  Of floats it is assumed that their texts
are read back, one by one and for those that the forest mentions only, because reading rounds in
several steps and does miss some of them.
-/

namespace SyntaxForest

open Json (Raw)

namespace Stored

/-- An array that was written is read if its members are. -/
theorem array?_array {α : Type} {read : Raw → Option α} {write : α → Json} {xs : Array α}
    (h : ∀ x ∈ xs, read (write x).raw = some x) :
    array? read (some (array write xs).raw) = some xs := by
  have items := Raw.list?_array fun x hx => h x (Array.mem_toList_iff.mp hx)
  rw [array?, required_some, array, items, Option.map_some]

/-- Nothing is read of an array of which a member cannot be read. -/
theorem array?_array_eq_none {α : Type} {read : Raw → Option α} {write : α → Json} {xs : Array α}
    {x : α} (hx : x ∈ xs) (h : read (write x).raw = none) :
    array? read (some (array write xs).raw) = none := by
  rw [array?, required_some, array, Raw.list?_array_eq_none (Array.mem_toList_iff.mpr hx) h,
    Option.map_none]

end Stored

namespace Forest

variable {f : Forest}

/-- The float stands in a forest, as the value of a number or in an annotation. -/
inductive Mentions (f : Forest) : Binary64 → Prop where
  | literal {c : Contents.NumberLiteral} (mem : c ∈ f.pools.numberLiterals) : Mentions f c.value
  | attached {r : NodeRecord} (mem : r ∈ f.records) {attachment : Attachment}
    {set : AnnotationSet} (own : r.attachment attachment = some set) {value : Json}
    (among : value ∈ set.records) {x : Binary64} (h : value.Mentions x) : Mentions f x

/-- The members of a pool fit. -/
theorem Storable.fits_of_mem (hf : f.Storable) {α : Type} {pool : Array α} {wrap : α → Contents}
    (k : Kind) (own : ∀ i, f.pools.get? k i = pool[i]?.map wrap) {c : α} (hc : c ∈ pool) :
    (wrap c).Fits := by
  obtain ⟨i, hi⟩ := Array.mem_iff_getElem?.mp hc
  exact hf.contents k i (wrap c) (by rw [own, hi, Option.map_some])

open Stored in
/-- A forest whose numbers are finite is read as it was. -/
theorem Storable.ofText?_toText (hf : f.Storable)
    (floats : ∀ x, f.Mentions x → x.isFinite → Json.ReadsBack x)
    (finite : ∀ c ∈ f.pools.numberLiterals, c.value.isFinite) : ofText? f.toText = some f := by
  have annotations (r : NodeRecord) (mem : r ∈ f.records) : ∀ attachment set,
      r.attachment attachment = some set → ∀ value ∈ set.records,
        value.raw.value? = some value := by
    intro attachment set attached value among
    have storable := (hf.record r mem).attached attachment set attached value among
    exact Json.value?_raw storable fun x mentioned =>
      floats x (.attached mem attached among mentioned) (storable.isFinite mentioned)
  have headers := array?_array fun h mem => header?_header (hf.header h mem)
  have records := array?_array fun r mem => record?_record (hf.record r mem) (annotations r mem)
  have names := array?_array fun c (_ : c ∈ f.pools.names) => name?_name c
  have numbers := array?_array fun c (mem : c ∈ f.pools.numberLiterals) =>
    numberLiteral?_numberLiteral (finite c mem) (floats _ (.literal mem) (finite c mem))
  have strings := array?_array fun c (_ : c ∈ f.pools.stringLiterals) =>
    stringLiteral?_stringLiteral c
  have keywords := array?_array fun c (_ : c ∈ f.pools.keywordLiterals) =>
    keywordLiteral?_keywordLiteral c
  have arrays := array?_array fun c (mem : c ∈ f.pools.arrayLiterals) =>
    arrayLiteral?_arrayLiteral (hf.fits_of_mem .arrayLiteral (fun _ => rfl) mem)
  have objects := array?_array fun c (mem : c ∈ f.pools.objectLiterals) =>
    objectLiteral?_objectLiteral (hf.fits_of_mem .objectLiteral (fun _ => rfl) mem)
  have properties := array?_array fun c (mem : c ∈ f.pools.objectProperties) =>
    objectProperty?_objectProperty (hf.fits_of_mem .objectProperty (fun _ => rfl) mem)
  have blocks := array?_array fun c (mem : c ∈ f.pools.blocks) =>
    block?_block (hf.fits_of_mem .block (fun _ => rfl) mem)
  have expressions := array?_array fun c (mem : c ∈ f.pools.expressionStatements) =>
    expressionStatement?_expressionStatement
      (hf.fits_of_mem .expressionStatement (fun _ => rfl) mem)
  have ifs := array?_array fun c (mem : c ∈ f.pools.ifStatements) =>
    ifStatement?_ifStatement (hf.fits_of_mem .ifStatement (fun _ => rfl) mem)
  have tries := array?_array fun c (mem : c ∈ f.pools.tryStatements) =>
    tryStatement?_tryStatement (hf.fits_of_mem .tryStatement (fun _ => rfl) mem)
  have catches := array?_array fun c (mem : c ∈ f.pools.catchClauses) =>
    catchClause?_catchClause (hf.fits_of_mem .catchClause (fun _ => rfl) mem)
  have forIns := array?_array fun c (mem : c ∈ f.pools.forInLoops) =>
    forInLoop?_forInLoop (hf.fits_of_mem .forInLoop (fun _ => rfl) mem)
  have dos := array?_array fun c (mem : c ∈ f.pools.doLoops) =>
    doLoop?_doLoop (hf.fits_of_mem .doLoop (fun _ => rfl) mem)
  have whiles := array?_array fun c (mem : c ∈ f.pools.whileLoops) =>
    whileLoop?_whileLoop (hf.fits_of_mem .whileLoop (fun _ => rfl) mem)
  rw [ofText?, toText, Json.parse?_text, Option.bind_some]
  refine Eq.trans (Raw.record?_bind (by rfl) (by decide) 17 _) ?_
  simp only [List.map_cons, List.map_nil, headers, records, names, numbers, strings, keywords,
    arrays, objects, properties, blocks, expressions, ifs, tries, catches, forIns, dos, whiles]
  rfl

open Stored in
/-- A forest with a number that is not finite is not read, whatever else it holds. -/
theorem ofText?_toText_eq_none {c : Contents.NumberLiteral} (mem : c ∈ f.pools.numberLiterals)
    (h : ¬ c.value.isFinite) : ofText? f.toText = none := by
  have numbers := array?_array_eq_none mem (numberLiteral?_eq_none h)
  rw [ofText?, toText, Json.parse?_text, Option.bind_some]
  refine Eq.trans (Raw.record?_bind (by rfl) (by decide) 17 _) ?_
  refine Option.eq_none_iff_forall_ne_some.mpr fun g read => ?_
  -- The headers, the records and the names are read first; the numbers come next.
  obtain ⟨_, -, read⟩ := Option.bind_eq_some_iff.mp read
  obtain ⟨_, -, read⟩ := Option.bind_eq_some_iff.mp read
  obtain ⟨_, -, read⟩ := Option.bind_eq_some_iff.mp read
  obtain ⟨_, found, -⟩ := Option.bind_eq_some_iff.mp read
  cases numbers.symm.trans found

/-- **The forests that are read as they were** are those that can be stored and whose numbers are
finite. -/
theorem ofText?_toText_iff (floats : ∀ x, f.Mentions x → x.isFinite → Json.ReadsBack x) :
    ofText? f.toText = some f ↔ f.Storable ∧ ∀ c ∈ f.pools.numberLiterals, c.value.isFinite :=
  ⟨storable_of_ofText?, fun ⟨storable, finite⟩ => storable.ofText?_toText floats finite⟩

/-- **What was read is read again from its own text.** -/
theorem ofText?_toText_of_ofText? {text : String} (h : ofText? text = some f)
    (floats : ∀ x, f.Mentions x → x.isFinite → Json.ReadsBack x) :
    ofText? f.toText = some f :=
  (ofText?_toText_iff floats).mpr (storable_of_ofText? h)

/-- A forest that can be stored is read as it was, unless a number in it is not finite, which keeps
it from being read at all. -/
theorem Storable.reads_back (hf : f.Storable)
    (floats : ∀ x, f.Mentions x → x.isFinite → Json.ReadsBack x) :
    ((∃ g, ofText? f.toText = some g) ↔ ∀ c ∈ f.pools.numberLiterals, c.value.isFinite) ∧
      ∀ g, ofText? f.toText = some g → g = f := by
  have finite {g : Forest} (read : ofText? f.toText = some g) :
      ∀ c ∈ f.pools.numberLiterals, c.value.isFinite := by
    intro c mem
    by_contra infinite
    rw [ofText?_toText_eq_none mem infinite] at read
    cases read
  constructor
  · constructor
    · rintro ⟨g, read⟩
      exact finite read
    · exact fun h => ⟨f, hf.ofText?_toText floats h⟩
  · intro g read
    rw [hf.ofText?_toText floats (finite read)] at read
    exact (Option.some.inj read).symm

/-- **What is stored is read as it was**, unless a number in it is not finite, which keeps it from
being read at all.  This takes a forest that can be stored.  What was read can be, from whatever
text, and its numbers are finite, so that it is read again; and what was reached can be, as long as
the places and the identities in it are not too great. -/
theorem round_trip (floats : ∀ x, f.Mentions x → x.isFinite → Json.ReadsBack x) :
    (f.Storable →
      ((∃ g, ofText? f.toText = some g) ↔ ∀ c ∈ f.pools.numberLiterals, c.value.isFinite) ∧
      ∀ g, ofText? f.toText = some g → g = f) ∧
    (∀ text, ofText? text = some f → ofText? f.toText = some f) ∧
    ∀ loose, Reached f loose → f.size ≤ Stored.absent → (∀ r ∈ f.records, r.id < 2 ^ 64) →
      (∀ r ∈ f.records, ∀ attachment set, r.attachment attachment = some set →
        ∀ value ∈ set.records, value.Storable) → f.Storable := by
  refine ⟨fun storable => storable.reads_back floats, fun text read => ?_, ?_⟩
  · exact ofText?_toText_of_ofText? read floats
  · intro loose reached few ids attached
    exact reached.storable few ids attached

/-! ## A forest with gaps -/

/-- An annotation with a number of each sort. -/
def weighing : Json := .object
  [("weight", .float ⟨0x3FB999999999999A⟩), ("count", .int 1), ("", .null)]

/-- A block with a number in it, to which an annotation is attached.  Nothing else fits together:
the number has a parent that is no node, the third node has neither contents nor a record, and the
string has no node. -/
def shelved : Forest where
  headers := #[⟨.block, 0, noPosition, some 0⟩, ⟨.numberLiteral, 4, 3, some 0⟩,
    ⟨.ifStatement, 0, 0, some 7⟩]
  records := #[{ id := 1, criteria := some .empty },
    { parent := some 9, id := 2, dependencies := some ⟨[weighing]⟩ }]
  pools := {
    blocks := #[⟨[some 1, none]⟩]
    numberLiterals := #[⟨some "1.5", ⟨0x3FF8000000000000⟩⟩]
    stringLiterals := #[⟨"\"\\\n\x01é", '\''⟩] }

theorem storable_weighing : weighing.Storable := by
  refine .object (List.forall_mem_cons.mpr ⟨.float (by decide), ?_⟩) (by decide)
  exact List.forall_mem_cons.mpr ⟨.int (by decide), List.forall_mem_cons.mpr ⟨.null, nofun⟩⟩

theorem eq_of_mentions_weighing {x : Binary64} (h : weighing.Mentions x) :
    x = ⟨0x3FB999999999999A⟩ := by
  cases h with
  | object mem h =>
    simp only [List.mem_cons, List.not_mem_nil, or_false] at mem
    rcases mem with rfl | rfl | rfl <;> cases h
    rfl

/-- Nothing else is attached to a node of that forest. -/
theorem eq_weighing {r : NodeRecord} (mem : r ∈ shelved.records) {attachment : Attachment}
    {set : AnnotationSet} (attached : r.attachment attachment = some set) {value : Json}
    (among : value ∈ set.records) : value = weighing := by
  simp only [shelved, List.mem_toArray, List.mem_cons, List.not_mem_nil, or_false] at mem
  rcases mem with rfl | rfl <;> cases attachment <;> cases attached
  · cases among
  · exact List.mem_singleton.mp among

theorem storable_shelved : shelved.Storable where
  header := by simp [shelved, Stored.Fits, Stored.absent]
  record := by
    intro r mem
    refine ⟨?_, ?_, ?_⟩
    · revert r
      simp [shelved, Stored.Fits, Stored.absent]
    · revert r
      decide
    · intro attachment set attached value among
      exact eq_weighing mem attached among ▸ storable_weighing
  contents := by
    intro k i c held
    cases k with
    | block =>
      obtain ⟨c, mem, rfl⟩ := Option.map_eq_some_iff.mp held
      have only := Array.mem_of_getElem? mem
      simp only [shelved, List.mem_toArray, List.mem_singleton] at only
      subst only
      simp [Contents.Fits, Contents.links, Stored.Fits, Stored.absent]
    | numberLiteral | stringLiteral =>
      obtain ⟨_, -, rfl⟩ := Option.map_eq_some_iff.mp held
      exact fun _ mem => absurd mem List.not_mem_nil
    | _ => simp [shelved, Pools.get?] at held

theorem readsBack_of_mentions_shelved {x : Binary64} (mentioned : shelved.Mentions x)
    (finite : x.isFinite) : Json.ReadsBack x := by
  refine (Json.readsBack_iff finite).mpr ?_
  cases mentioned with
  | literal mem =>
    simp only [shelved, List.mem_toArray, List.mem_singleton] at mem
    subst mem
    decide +kernel
  | attached mem attached among h =>
    rw [eq_weighing mem attached among] at h
    rw [eq_of_mentions_weighing h]
    decide +kernel

/-- Nothing is attached in a forest that was reached by building alone. -/
theorem attachment_finished {r : NodeRecord}
    (mem : r ∈ (Command.perform Command.finished).1.records) (attachment : Attachment) :
    r.attachment attachment = none := by
  have unmarked : ∀ r ∈ (Command.perform Command.finished).1.records,
      (r.attachment .criteria).isNone ∧ (r.attachment .dependencies).isNone := by
    decide +kernel
  obtain ⟨criteria, dependencies⟩ := unmarked r mem
  cases attachment with
  | criteria => exact Option.isNone_iff_eq_none.mp criteria
  | dependencies => exact Option.isNone_iff_eq_none.mp dependencies

/-- What a forest lacks is still lacking when it is read again.  A forest that was reached can be
stored; it is read as it was, and then it can be stored and read again. -/
theorem round_trip_shelved :
    ((shelved.Storable ∧ ∀ x, shelved.Mentions x → x.isFinite → Json.ReadsBack x) ∧
      (∀ c ∈ shelved.pools.numberLiterals, c.value.isFinite) ∧
      (∃ g, ofText? shelved.toText = some g) ∧
      ∀ g, ofText? shelved.toText = some g → g = shelved) ∧
    (Command.perform Command.finished).1.Storable ∧
      ofText? (Command.perform Command.finished).1.toText =
        some (Command.perform Command.finished).1 := by
  constructor
  · have floats (x : Binary64) := readsBack_of_mentions_shelved (x := x)
    have finite : ∀ c ∈ shelved.pools.numberLiterals, c.value.isFinite := by decide
    have both := (round_trip floats).1 storable_shelved
    exact ⟨⟨storable_shelved, floats⟩, finite, both.1.mpr finite, both.2⟩
  · have numbers : (Command.perform Command.finished).1.pools.numberLiterals = #[] := by
      decide +kernel
    have floats (x : Binary64) (mentioned : (Command.perform Command.finished).1.Mentions x) :
        x.isFinite → Json.ReadsBack x := by
      cases mentioned with
      | literal mem => exact absurd (numbers ▸ mem) (Array.not_mem_empty _)
      | attached mem attached => cases (attachment_finished mem _).symm.trans attached
    obtain ⟨stored, again, storable⟩ := round_trip floats
    have storable := storable _ (reached_perform Command.finished) (by decide +kernel)
      (by decide +kernel) fun r mem attachment set attached => by
        cases (attachment_finished mem _).symm.trans attached
    obtain ⟨succeeds, same⟩ := stored storable
    obtain ⟨g, read⟩ := succeeds.mpr
      (by rw [numbers]; exact fun c mem => absurd mem (Array.not_mem_empty _))
    rw [same g read] at read
    exact ⟨storable, again _ read⟩

end Forest

end SyntaxForest
