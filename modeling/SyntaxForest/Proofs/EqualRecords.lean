import SyntaxForest.Proofs.Placement

/-!
# Equal records, field by field

Where two objects are equal, fields of one name have equal values, whatever the order of the fields.
So where two records are equal and both are filled as a form says, the entries of one name are
*matched*: they are filled with equal values (`Form.Filled.matched`).  What that says of two entries
depends on what they are.  Values of their own are equal; for children it says that the same slots
are empty, and that the others, place by place, have equal records.
-/

namespace SyntaxForest

namespace Json

/-- The fields are among others: each has an equal one of its name. -/
theorem sameFields_iff {fields others : List (String × Json)} : sameFields fields others ↔
    ∀ field ∈ fields, ∃ other, others.lookup field.1 = some other ∧ field.2.same other := by
  induction fields with
  | nil => simp [sameFields]
  | cons field rest ih =>
    obtain ⟨name, value⟩ := field
    rw [sameFields, Bool.and_eq_true, ih, List.forall_mem_cons, hasField]
    refine and_congr_left' ?_
    cases others.lookup name <;> simp

theorem sameItems_iff {items others : List Json} :
    sameItems items others ↔ List.Forall₂ (fun v w => v.same w) items others := by
  induction items generalizing others with
  | nil => cases others <;> simp [sameItems]
  | cons item rest ih => cases others <;> simp [sameItems, ih]

/-- **In equal objects, fields of one name have equal values.** -/
theorem same_of_lookup {fields others : List (String × Json)}
    (same : (object fields).same (.object others)) {name : String} {v w : Json}
    (hv : fields.lookup name = some v) (hw : others.lookup name = some w) : v.same w := by
  rw [Json.same, Bool.and_eq_true, sameFields_iff] at same
  obtain ⟨front, back, rfl, -⟩ := List.lookup_eq_some_iff.mp hv
  obtain ⟨other, found, equal⟩ := same.2 (name, v) (by simp)
  obtain rfl := Option.some.inj (hw.symm.trans found)
  exact equal

/-- Objects are equal if their fields correspond place by place and no name is repeated. -/
theorem same_of_forall₂ {fields others : List (String × Json)}
    (h : List.Forall₂ (fun a b => a.1 = b.1 ∧ a.2.same b.2) fields others)
    (nodup : (others.map Prod.fst).Nodup) : (object fields).same (.object others) := by
  rw [Json.same, Bool.and_eq_true, beq_iff_eq, sameFields_iff]
  refine ⟨h.length_eq, ?_⟩
  induction h with
  | nil => nofun
  | @cons a b fields others first _ ih =>
    obtain ⟨fresh, nodup⟩ := List.nodup_cons.mp nodup
    refine List.forall_mem_cons.mpr ⟨⟨b.2, ?_, first.2⟩, fun field hfield => ?_⟩
    · rw [List.lookup_cons, first.1, beq_self_eq_true]
    · obtain ⟨other, found, equal⟩ := ih nodup field hfield
      refine ⟨other, ?_, equal⟩
      obtain ⟨front, back, rfl, -⟩ := List.lookup_eq_some_iff.mp found
      have apart : (field.1 == b.1) = false := by
        rw [beq_eq_false_iff_ne]
        rintro same
        exact fresh (same ▸ List.mem_map_of_mem (f := Prod.fst) (a := (field.1, other)) (by simp))
      rw [List.lookup_cons, apart]
      exact found

end Json

variable {look look' : Link → Except TreeError Json}

/-- Equal values are looked up for two nodes. -/
def EqualParts (look look' : Link → Except TreeError Json) (x y : NodeIndex) : Prop :=
  ∃ v w, look (some x) = .ok v ∧ look' (some y) = .ok w ∧ v.same w

/-- All that is looked up for nodes are objects. -/
def AnswersObjects (look : Link → Except TreeError Json) : Prop :=
  ∀ x part, look (some x) = .ok part → ∃ fields, part = .object fields

namespace Entry

/-- The entries are filled with equal values. -/
def Matched (look look' : Link → Except TreeError Json) (entry other : Entry) : Prop :=
  ∃ v w, entry.Fills look v ∧ other.Fills look' w ∧ v.same w

theorem Matched.value {v w : Json} (h : Matched look look' (.value v) (.value w)) : v.same w := by
  obtain ⟨_, _, ⟨rfl, -⟩, ⟨rfl, -⟩, same⟩ := h
  exact same

/-- **A child is recorded in one place if one is recorded in the other**, with an equal record. -/
theorem Matched.child (objects : AnswersObjects look) (objects' : AnswersObjects look') {x y : Link}
    (h : Matched look look' (.child x) (.child y)) : Option.Rel (EqualParts look look') x y := by
  obtain ⟨v, w, hv, hw, same⟩ := h
  cases x with
  | none =>
    obtain rfl : v = .null := hv
    cases y with
    | none => exact .none
    | some y =>
      obtain ⟨fields, rfl⟩ := objects' y w hw
      cases same
  | some x =>
    cases y with
    | none =>
      obtain rfl : w = .null := hw
      obtain ⟨fields, rfl⟩ := objects x v hv
      cases same
    | some y => exact .some ⟨v, w, hv, hw, same⟩

/-- **Of two lists as many children are recorded**, place by place with equal records. -/
theorem Matched.children {xs ys : List Link}
    (h : Matched look look' (.children xs) (.children ys)) :
    List.Forall₂ (Option.Rel (EqualParts look look')) xs ys := by
  obtain ⟨_, _, ⟨items, rfl, hitems⟩, ⟨others, rfl, hothers⟩, same⟩ := h
  have pairs := Json.sameItems_iff.mp (same : Json.sameItems items others)
  clear same
  induction hitems generalizing ys others with
  | nil =>
    cases pairs
    cases hothers
    exact .nil
  | cons first _ ih =>
    cases pairs with
    | cons equal pairs =>
      cases hothers with
      | cons first' rest' =>
        obtain ⟨x, rfl, hx⟩ := first
        obtain ⟨y, rfl, hy⟩ := first'
        exact .cons (.some ⟨_, _, hx, hy, equal⟩) (ih _ rest' pairs)

end Entry

/-- **In equal records, entries of one name are matched**, whatever stands behind. -/
theorem Form.Filled.matched {form form' : Form} {own own' rest rest' : List (String × Json)}
    (filled : form.Filled look own) (filled' : form'.Filled look' own')
    (nodup : (form.map Prod.fst).Nodup) (nodup' : (form'.map Prod.fst).Nodup)
    (same : (Json.object (own ++ rest)).same (.object (own' ++ rest'))) {name : String}
    {entry entry' : Entry} (hmem : (name, entry) ∈ form) (hmem' : (name, entry') ∈ form') :
    entry.Matched look look' entry' := by
  obtain ⟨v, hv, fills⟩ := filled.exists_lookup nodup hmem
  obtain ⟨w, hw, fills'⟩ := filled'.exists_lookup nodup' hmem'
  have found : (own ++ rest).lookup name = some v := by
    rw [List.lookup_append, hv, Option.some_or]
  have found' : (own' ++ rest').lookup name = some w := by
    rw [List.lookup_append, hw, Option.some_or]
  exact ⟨v, w, fills, fills', Json.same_of_lookup same found found'⟩

theorem Form.Filled.map_fst {form : Form} {own : List (String × Json)}
    (filled : form.Filled look own) : own.map Prod.fst = form.map Prod.fst := by
  induction filled with
  | nil => rfl
  | cons first _ ih => rw [List.map_cons, List.map_cons, first.1, ih]

/-- What stands behind a record is found where the form has no entry of the name. -/
theorem Form.Filled.lookup_behind {form : Form} {own : List (String × Json)}
    (filled : form.Filled look own) {name : String} (free : name ∉ form.map Prod.fst)
    (rest : List (String × Json)) : (own ++ rest).lookup name = rest.lookup name := by
  rw [List.lookup_append]
  cases found : own.lookup name with
  | none => rfl
  | some v =>
    obtain ⟨entry, hmem, -⟩ := filled.exists_entry found
    exact absurd (List.mem_map_of_mem hmem) free

end SyntaxForest
