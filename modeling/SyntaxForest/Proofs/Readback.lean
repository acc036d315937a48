import SyntaxForest.Proofs.Numerals

/-!
# JSON that is written and read

The reader reads what the writer has written, with whatever stands behind it left over
(`Json.readable`).  What is read is the value as a text shows it (`Json.raw`): numbers with their
spelling, strings as text, fields in their order.  Its value is the value again if all its parts
have one: integers of 64 bits, finite floats that their spelling denotes, and objects in which no
key is repeated (`Json.value?_raw`).

A reader that is given a bound on its steps has enough of them with the length of the text, because
every step that opens something is paid for by a bracket, and every item by its comma.
-/

namespace SyntaxForest

namespace Json

/-! ## Values part by part -/

/-- What holds of a value if it holds of its items and of the values of its fields holds of all
values. -/
@[elab_as_elim]
theorem induction {motive : Json → Prop} (null : motive .null) (bool : ∀ b, motive (.bool b))
    (int : ∀ n, motive (.int n)) (float : ∀ x, motive (.float x))
    (string : ∀ s, motive (.string s))
    (array : ∀ items, (∀ x ∈ items, motive x) → motive (.array items))
    (object : ∀ fields : List (String × Json), (∀ field ∈ fields, motive field.2) →
      motive (.object fields)) (value : Json) : motive value :=
  @Json.rec motive (fun items => ∀ x ∈ items, motive x)
    (fun fields => ∀ field ∈ fields, motive field.2) (fun field => motive field.2)
    null bool int float string array object
    (fun _ h => absurd h List.not_mem_nil) (fun _ _ hx hxs => List.forall_mem_cons.mpr ⟨hx, hxs⟩)
    (fun _ h => absurd h List.not_mem_nil) (fun _ _ hx hxs => List.forall_mem_cons.mpr ⟨hx, hxs⟩)
    (fun _ _ h => h) value

mutual

/-- What is read of the text of a value. -/
def raw : Json → Raw
  | .null => .null
  | .bool b => .bool b
  | .int n => .number (.ofInt n)
  | .float x => if x.isFinite then .number (.ofBinary64 x) else .null
  | .string s => .string (some s)
  | .array items => .array (rawItems items)
  | .object fields => .object (rawFields fields)
termination_by structural x => x

/-- What is read of the texts of some values. -/
def rawItems : List Json → List Raw
  | [] => []
  | x :: xs => raw x :: rawItems xs
termination_by structural x => x

/-- What is read of the texts of some fields. -/
def rawFields : List (String × Json) → List (Option String × Raw)
  | [] => []
  | f :: fs => rawField f :: rawFields fs
termination_by structural x => x

/-- What is read of the text of a field. -/
def rawField : String × Json → Option String × Raw
  | (key, value) => (some key, raw value)
termination_by structural x => x

end

theorem rawItems_eq (items : List Json) : rawItems items = items.map raw := by
  induction items with
  | nil => rfl
  | cons x xs ih => rw [rawItems, ih, List.map_cons]

theorem rawFields_eq (fields : List (String × Json)) :
    rawFields fields = fields.map fun field => (some field.1, field.2.raw) := by
  induction fields with
  | nil => rfl
  | cons f fs ih => rw [rawFields, ih, List.map_cons, rawField]

/-! ## Strings -/

theorem hexValue?_hexDigit : ∀ n < 16, hexValue? (hexDigit n) = some n := by decide

/-- **What stands for a character inside a string is read as this character.** -/
theorem readString_escape (c : Char) (done cs : List Char) :
    readString .plain ⟨done, none, true⟩ (escape c ++ cs) =
      readString .plain ⟨c :: done, none, true⟩ cs := by
  unfold escape
  split
  case h_8 quote backslash _ _ _ _ _ =>
    split
    · next control =>
      have high := hexValue?_hexDigit (c.toNat / 16) (by omega)
      have low := hexValue?_hexDigit (c.toNat % 16) (by omega)
      have code : 16 * (c.toNat / 16) + c.toNat % 16 = c.toNat := by omega
      have zero : hexValue? '0' = some 0 := rfl
      have whole : Scan.code ⟨done, none, true⟩ c.toNat = ⟨c :: done, none, true⟩ := by
        rw [Scan.code, if_neg (by omega), if_neg (by omega), Char.ofNat_toNat]
        rfl
      simp [readString, zero, high, low, code, whole]
    · next plain =>
      have quote : ¬ c = '"' := quote
      have backslash : ¬ c = '\\' := backslash
      simp [readString, quote, backslash, plain, Scan.push]
  all_goals rfl

/-- A string is read up to its closing quote. -/
theorem readString_append (cs done rest : List Char) :
    readString .plain ⟨done, none, true⟩ (cs.foldr (fun c cs => escape c ++ cs) ('"' :: rest)) =
      some (some (String.ofList (done.reverse ++ cs)), rest) := by
  induction cs generalizing done with
  | nil => simp [readString, Scan.finish]
  | cons c cs ih => rw [List.foldr_cons, readString_escape, ih, List.reverse_cons,
      List.append_assoc, List.singleton_append]

theorem readString_string (s : String) (rest : List Char) :
    readString .plain .start (s.toList.foldr (fun c cs => escape c ++ cs) ('"' :: rest)) =
      some (some s, rest) := by
  rw [Scan.start, readString_append, List.reverse_nil, List.nil_append, String.ofList_toList]

/-! ## The front and the length of a text -/

/-- A text starts with something that is no blank and closes no array. -/
def Starts (cs : List Char) : Prop := ∃ c rest, cs = c :: rest ∧ c ∉ [' ', '\n', '\t', '\r', ']']

theorem Numeral.starts_text {n : Numeral} (h : n.Wellformed) (rest : List Char) :
    Starts (n.text ++ rest) := by
  rw [text]
  split
  · exact ⟨'-', n.body ++ rest, rfl, by decide⟩
  · obtain ⟨c, cs, whole⟩ := List.exists_cons_of_ne_nil h.whole.some
    refine ⟨c, _, by rw [body, whole, List.nil_append, List.cons_append, List.cons_append], ?_⟩
    have digit := h.whole.all c (whole ▸ List.mem_cons_self)
    intro other
    simp only [List.mem_cons, List.not_mem_nil, or_false] at other
    rcases other with rfl | rfl | rfl | rfl | rfl <;> cases digit

theorem starts_write (value : Json) (rest : List Char) : Starts (write value rest) := by
  cases value with
  | null => exact ⟨_, _, rfl, by decide⟩
  | bool b => cases b <;> exact ⟨_, _, rfl, by decide⟩
  | int n =>
    rw [write, Numeral.writeInt_eq]
    exact Numeral.starts_text (Numeral.wellformed_ofInt n) rest
  | float x =>
    rw [write]
    cases finite : x.isFinite with
    | false => rw [writeFloat, finite]; exact ⟨'n', _, rfl, by decide⟩
    | true =>
      rw [Numeral.writeFloat_eq finite]
      exact Numeral.starts_text (Numeral.wellformed_ofDecimal _ _) rest
  | string s => exact ⟨_, _, rfl, by decide⟩
  | array items => cases items <;> exact ⟨_, _, rfl, by decide⟩
  | object fields => cases fields <;> exact ⟨_, _, rfl, by decide⟩

theorem Starts.skipBlanks {cs : List Char} (h : Starts cs) : skipBlanks cs = cs := by
  obtain ⟨c, rest, rfl, plain⟩ := h
  simp only [List.mem_cons, List.not_mem_nil, or_false, not_or] at plain
  simp [Json.skipBlanks, plain]

theorem length_lt_string (cs rest : List Char) :
    rest.length < (cs.foldr (fun c cs => escape c ++ cs) ('"' :: rest)).length := by
  induction cs with
  | nil => simp
  | cons c cs ih =>
    rw [List.foldr_cons, List.length_append]
    omega

theorem length_lt_writeString (s : String) (rest : List Char) :
    rest.length + 1 < (writeString s rest).length := by
  rw [writeString, List.length_cons]
  have := length_lt_string s.toList rest
  omega

theorem length_lt_number {n : Numeral} (h : n.Wellformed) (rest : List Char) :
    rest.length < (n.text ++ rest).length := by
  have := List.length_pos_iff.mpr h.whole.some
  rw [Numeral.text, Numeral.body]
  simp only [List.length_append]
  omega

/-- A value is longer than nothing. -/
def Long (value : Json) : Prop := ∀ rest, rest.length < (write value rest).length

theorem length_lt_writeItems {items : List Json} (h : ∀ x ∈ items, Long x) (rest : List Char) :
    rest.length < (writeItems items rest).length := by
  induction items with
  | nil => exact Nat.lt_succ_self _
  | cons x xs ih =>
    rw [List.forall_mem_cons] at h
    rw [writeItems, List.length_cons]
    exact Nat.lt_succ_of_lt (Nat.lt_trans (ih h.2) (h.1 _))

/-- The text of a field is longer than that of its value. -/
theorem length_lt_writeField (key : String) (value : Json) (rest : List Char) :
    (write value rest).length < (writeField (key, value) rest).length := by
  have := length_lt_writeString key (':' :: write value rest)
  rw [List.length_cons] at this
  rw [writeField]
  omega

theorem length_lt_writeFields {fields : List (String × Json)}
    (h : ∀ field ∈ fields, Long field.2) (rest : List Char) :
    rest.length < (writeFields fields rest).length := by
  induction fields with
  | nil => exact Nat.lt_succ_self _
  | cons f fs ih =>
    rw [List.forall_mem_cons] at h
    rw [writeFields, List.length_cons]
    have own := Nat.lt_trans (h.1 _) (length_lt_writeField f.1 f.2 (writeFields fs rest))
    exact Nat.lt_succ_of_lt (Nat.lt_trans (ih h.2) own)

/-- The text of a value is not empty. -/
theorem long (value : Json) : value.Long := by
  induction value using Json.induction with
  | null =>
    intro rest
    simp only [write, List.length_cons]
    omega
  | bool b =>
    intro rest
    cases b <;> simp only [write, List.length_cons] <;> omega
  | int n =>
    intro rest
    rw [write, Numeral.writeInt_eq]
    exact length_lt_number (Numeral.wellformed_ofInt n) rest
  | float x =>
    intro rest
    rw [write]
    cases finite : x.isFinite with
    | false =>
      simp only [writeFloat, finite, Bool.false_eq_true, if_false, List.length_append]
      exact Nat.lt_add_of_pos_left (by decide)
    | true =>
      rw [Numeral.writeFloat_eq finite]
      exact length_lt_number (Numeral.wellformed_ofDecimal _ _) rest
  | string s => exact fun rest => Nat.lt_of_succ_lt (length_lt_writeString s rest)
  | array items ih =>
    intro rest
    cases items with
    | nil => exact Nat.lt_succ_of_lt (Nat.lt_succ_self _)
    | cons x xs =>
      rw [List.forall_mem_cons] at ih
      rw [write, List.length_cons]
      exact Nat.lt_succ_of_lt (Nat.lt_trans (length_lt_writeItems ih.2 rest) (ih.1 _))
  | object fields ih =>
    intro rest
    cases fields with
    | nil => exact Nat.lt_succ_of_lt (Nat.lt_succ_self _)
    | cons f fs =>
      rw [List.forall_mem_cons] at ih
      rw [write, List.length_cons]
      have own := Nat.lt_trans (ih.1 _) (length_lt_writeField f.1 f.2 (writeFields fs rest))
      exact Nat.lt_succ_of_lt (Nat.lt_trans (length_lt_writeFields ih.2 rest) own)

/-! ## Reading -/

/-- With steps enough for its text, a value is read as its text shows it, and what follows is left
over. -/
def Readable (value : Json) : Prop :=
  ∀ rest steps, Ends rest → (write value rest).length ≤ steps + rest.length →
    readValue steps (write value rest) = some (value.raw, rest)

theorem ends_writeItems (items : List Json) (rest : List Char) : Ends (writeItems items rest) := by
  cases items <;> (rintro c ⟨⟩; decide)

theorem ends_writeFields (fields : List (String × Json)) (rest : List Char) :
    Ends (writeFields fields rest) := by
  cases fields <;> (rintro c ⟨⟩; decide)

/-- The items of an array are read from one item on. -/
theorem readItems_write {items : List Json} (h : ∀ x ∈ items, Readable x) {x : Json}
    (hx : Readable x) (before : List Raw) (rest : List Char) (steps : Nat)
    (enough : (write x (writeItems items rest)).length ≤ steps + rest.length) :
    readItems steps (write x (writeItems items rest)) before =
      some (.array (before.reverse ++ rawItems (x :: items)), rest) := by
  have front := long x (writeItems items rest)
  have behind : rest.length < (writeItems items rest).length :=
    length_lt_writeItems (fun x _ => long x) rest
  induction items generalizing x steps before with
  | nil =>
    obtain ⟨steps, rfl⟩ : ∃ n, steps = n + 1 := ⟨steps - 1, by omega⟩
    rw [readItems, hx _ steps (ends_writeItems [] rest) (by omega)]
    simp [writeItems, skipBlanks, rawItems]
  | cons y items ih =>
    have next : (writeItems (y :: items) rest).length =
        (write y (writeItems items rest)).length + 1 := by rw [writeItems, List.length_cons]
    obtain ⟨steps, rfl⟩ : ∃ n, steps = n + 1 := ⟨steps - 1, by omega⟩
    rw [List.forall_mem_cons] at h
    rw [readItems, hx _ steps (ends_writeItems (y :: items) rest) (by omega)]
    have others := ih h.2 h.1 (x.raw :: before) steps (by omega) (long y _)
      (length_lt_writeItems (fun x _ => long x) rest)
    simpa [writeItems, skipBlanks, rawItems] using others

/-- The fields of an object are read from one field on. -/
theorem readFields_write {fields : List (String × Json)} (h : ∀ field ∈ fields, Readable field.2)
    (key : String) (value : Json) (hvalue : Readable value)
    (before : List (Option String × Raw)) (rest : List Char) (steps : Nat)
    (enough : (writeField (key, value) (writeFields fields rest)).length ≤ steps + rest.length) :
    readFields steps (writeField (key, value) (writeFields fields rest)) before =
      some (.object (before.reverse ++ rawFields ((key, value) :: fields)), rest) := by
  have front := length_lt_writeField key value (writeFields fields rest)
  have own := long value (writeFields fields rest)
  have behind : rest.length < (writeFields fields rest).length :=
    length_lt_writeFields (fun f _ => long f.2) rest
  have keyed (cs : List Char) : skipBlanks (writeString key cs) = writeString key cs := rfl
  have colon (cs : List Char) : skipBlanks (':' :: cs) = ':' :: cs := rfl
  induction fields generalizing key value steps before with
  | nil =>
    obtain ⟨steps, rfl⟩ : ∃ n, steps = n + 1 := ⟨steps - 1, by omega⟩
    have read := hvalue _ steps (ends_writeFields [] rest) (by omega)
    rw [readFields, writeField, keyed, writeString]
    simp only [readString_string, colon, read]
    simp [writeFields, skipBlanks, rawFields, rawField]
  | cons g fields ih =>
    obtain ⟨key', value'⟩ := g
    have next : (writeFields ((key', value') :: fields) rest).length =
        (writeField (key', value') (writeFields fields rest)).length + 1 := by
      rw [writeFields, List.length_cons]
    obtain ⟨steps, rfl⟩ : ∃ n, steps = n + 1 := ⟨steps - 1, by omega⟩
    rw [List.forall_mem_cons] at h
    have read := hvalue _ steps (ends_writeFields ((key', value') :: fields) rest) (by omega)
    rw [readFields, writeField, keyed, writeString]
    simp only [readString_string, colon, read]
    have others := ih h.2 key' value' h.1 ((some key, value.raw) :: before) steps (by omega)
      (length_lt_writeField ..) (long value' _) (length_lt_writeFields (fun f _ => long f.2) rest)
      (fun _ => rfl)
    simpa [writeFields, skipBlanks, rawFields, rawField] using others

/-- The text of a value is not empty, so that there is a step for it. -/
theorem Readable.of_succ {value : Json} (h : ∀ rest steps, Ends rest →
    (write value rest).length ≤ steps + 1 + rest.length →
      readValue (steps + 1) (write value rest) = some (value.raw, rest)) : value.Readable := by
  intro rest steps ends enough
  have some := long value rest
  obtain ⟨steps, rfl⟩ : ∃ n, steps = n + 1 := ⟨steps - 1, by omega⟩
  exact h rest steps ends enough

theorem readValue_null (steps : Nat) (rest : List Char) :
    readValue (steps + 1) ("null".toList ++ rest) = some (.null, rest) := by
  simp [readValue, skipBlanks, expect]

/-- **What is written is read.** -/
theorem readable (value : Json) : value.Readable := by
  induction value using Json.induction with
  | null => exact .of_succ fun rest steps _ _ => readValue_null steps rest
  | bool b =>
    refine .of_succ fun rest steps _ _ => ?_
    cases b <;> simp [write, readValue, skipBlanks, expect, raw]
  | int n =>
    refine .of_succ fun rest steps ends _ => ?_
    rw [write, Numeral.writeInt_eq, raw]
    exact readValue_text (Numeral.wellformed_ofInt n) ends steps
  | float x =>
    refine .of_succ fun rest steps ends _ => ?_
    rw [write, raw]
    cases finite : x.isFinite with
    | false =>
      rw [writeFloat, finite]
      exact readValue_null steps rest
    | true =>
      rw [Numeral.writeFloat_eq finite, if_pos rfl]
      exact readValue_text (Numeral.wellformed_ofDecimal _ _) ends steps
  | string s =>
    refine .of_succ fun rest steps _ _ => ?_
    exact congrArg (Option.map fun read => (Raw.string read.1, read.2)) (readString_string s rest)
  | array items ih =>
    refine .of_succ fun rest steps _ enough => ?_
    cases items with
    | nil => rfl
    | cons x xs =>
      rw [List.forall_mem_cons] at ih
      rw [write, List.length_cons] at enough
      have read := readItems_write ih.2 ih.1 [] rest steps (by omega)
      have opened : skipBlanks ('[' :: write x (writeItems xs rest)) =
          '[' :: write x (writeItems xs rest) := rfl
      rw [write, readValue]
      simp only [opened, (starts_write x (writeItems xs rest)).skipBlanks]
      split
      · next closed =>
        obtain ⟨c, cs, front, plain⟩ := starts_write x (writeItems xs rest)
        rw [front] at closed
        cases closed
        exact absurd (by decide) plain
      · exact read
  | object fields ih =>
    refine .of_succ fun rest steps _ enough => ?_
    cases fields with
    | nil => rfl
    | cons f fs =>
      obtain ⟨key, value⟩ := f
      rw [List.forall_mem_cons] at ih
      rw [write, List.length_cons] at enough
      exact readFields_write ih.2 key value ih.1 [] rest steps (by omega)

/-- **A text that was written is read as a whole.** -/
theorem parse?_text (value : Json) : Raw.parse? value.text = some value.raw := by
  have read := readable value [] ((write value []).length + 1) nofun (by simp)
  rw [Raw.parse?, text]
  simp [String.toList_ofList, read, skipBlanks]

/-! ## Values that are read -/

/-- The value can be stored: its integers have 64 bits, with or without a sign, its floats are
finite, and no object in it has a key twice. -/
inductive Storable : Json → Prop where
  | null : Storable .null
  | bool (b : Bool) : Storable (.bool b)
  | int {n : Int} (h : -2 ^ 63 ≤ n ∧ n < 2 ^ 64) : Storable (.int n)
  | float {x : Binary64} (h : x.isFinite) : Storable (.float x)
  | string (s : String) : Storable (.string s)
  | array {items : List Json} (h : ∀ x ∈ items, Storable x) : Storable (.array items)
  | object {fields : List (String × Json)} (h : ∀ field ∈ fields, Storable field.2)
    (distinct : (fields.map Prod.fst).Nodup) : Storable (.object fields)

/-- A float stands somewhere in a value. -/
inductive Mentions : Json → Binary64 → Prop where
  | float {x : Binary64} : Mentions (.float x) x
  | array {items : List Json} {item : Json} (mem : item ∈ items) {x : Binary64}
    (h : Mentions item x) : Mentions (.array items) x
  | object {fields : List (String × Json)} {field : String × Json} (mem : field ∈ fields)
    {x : Binary64} (h : Mentions field.2 x) : Mentions (.object fields) x

/-- Floats in a value that can be stored are finite. -/
theorem Storable.isFinite {value : Json} (h : value.Storable) {x : Binary64}
    (mentioned : value.Mentions x) : x.isFinite := by
  induction mentioned with
  | float => cases h with | float finite => exact finite
  | array mem _ ih => cases h with | array items => exact ih (items _ mem)
  | object mem _ ih => cases h with | object fields => exact ih (fields _ mem)

/-- The text of a float is read as the float. -/
def ReadsBack (x : Binary64) : Prop := parse? (float x).text = some (.float x)

/-- A finite float is read back if its spelling denotes it. -/
theorem readsBack_iff {x : Binary64} (finite : x.isFinite) :
    ReadsBack x ↔ (Numeral.ofBinary64 x).float? = some x := by
  rw [ReadsBack, parse?, parse?_text, raw, if_pos finite, Option.bind_some, Raw.value?,
    Numeral.value?, Numeral.ofBinary64, Numeral.int?_ofDecimal]
  constructor
  · intro h
    obtain ⟨y, read, same⟩ := Option.map_eq_some_iff.mp h
    cases same
    exact read
  · intro read
    exact congrArg (Option.map float) read

/-- Not every float is read back: the text of the one next to `10 ^ -26` denotes its neighbour. -/
example : (Numeral.ofBinary64 ⟨0x3A88C240C4AECB14⟩).float? = some ⟨0x3A88C240C4AECB13⟩ := by
  decide +kernel

/-- A new key goes to the end. -/
theorem insert_of_notMem {key : String} {known : List (String × Json)}
    (h : key ∉ known.map Prod.fst) (value : Json) :
    insert key value known = known ++ [(key, value)] := by
  induction known with
  | nil => rfl
  | cons field known ih =>
    rw [List.map_cons, List.mem_cons, not_or] at h
    rw [insert, if_neg (Ne.symm h.1), ih h.2, List.cons_append]

/-- Fields with different keys are an object as they are. -/
theorem insertAll_eq {fields : List (String × Json)} (distinct : (fields.map Prod.fst).Nodup) :
    insertAll fields = fields := by
  have behind (fields known : List (String × Json))
      (distinct : ((known ++ fields).map Prod.fst).Nodup) :
      fields.foldl (fun known field => insert field.1 field.2 known) known = known ++ fields := by
    induction fields generalizing known with
    | nil => rw [List.foldl_nil, List.append_nil]
    | cons field fields ih =>
      have fresh : field.1 ∉ known.map Prod.fst := by
        rw [List.map_append, List.map_cons] at distinct
        exact fun mem => (List.nodup_append.mp distinct).2.2 _ mem _ List.mem_cons_self rfl
      rw [List.append_cons] at distinct
      rw [List.foldl_cons, insert_of_notMem fresh, ih _ distinct, List.append_assoc,
        List.singleton_append]
  exact behind fields [] distinct

theorem values?_raw {items : List Json} (h : ∀ x ∈ items, x.raw.value? = some x) :
    Raw.values? (rawItems items) = some items := by
  induction items with
  | nil => rfl
  | cons x xs ih =>
    rw [List.forall_mem_cons] at h
    simp only [rawItems, Raw.values?, h.1, ih h.2]

theorem fields?_raw {fields : List (String × Json)}
    (h : ∀ field ∈ fields, field.2.raw.value? = some field.2) :
    Raw.fields? (rawFields fields) = some fields := by
  induction fields with
  | nil => rfl
  | cons f fs ih =>
    obtain ⟨key, value⟩ := f
    rw [List.forall_mem_cons] at h
    simp only [rawFields, rawField, Raw.fields?, Raw.field?, h.1, ih h.2]

/-- **What was written has the value that was written.** -/
theorem value?_raw {value : Json} (h : value.Storable)
    (floats : ∀ x, value.Mentions x → ReadsBack x) : value.raw.value? = some value := by
  induction h with
  | null | bool b | string s => rfl
  | @int n range =>
    have fits : (decide (-2 ^ 63 ≤ n) && decide (n < 2 ^ 64)) = true := by
      rw [decide_eq_true range.1, decide_eq_true range.2, Bool.and_self]
    rw [raw, Raw.value?, Numeral.value?, Numeral.int?_ofInt, Option.filter_some, if_pos fits]
  | float finite =>
    have read := (readsBack_iff finite).mp (floats _ .float)
    rw [raw, if_pos finite, Raw.value?, Numeral.value?, read, Numeral.ofBinary64,
      Numeral.int?_ofDecimal]
    rfl
  | array _ ih =>
    have items := values?_raw fun x hx => ih x hx fun y hy => floats y (.array hx hy)
    rw [raw, Raw.value?, items, Option.map_some]
  | object _ distinct ih =>
    have fields := fields?_raw fun f hf => ih f hf fun y hy => floats y (.object hf hy)
    rw [raw, Raw.value?, fields, Option.map_some, insertAll_eq distinct]

end Json

end SyntaxForest
