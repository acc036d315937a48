import SyntaxForest.Proofs.Recovery

/-!
# What records determine

The converse of what is recovered from records: trees that are the same as far as records go have
equal records.  Together, equality of records is the same as `Forest.SameRecorded`
(`Reached.same_record_iff`), so that this relation leaves out exactly what a record loses.

The way is the one of recovery backwards.  Nodes that are the same as far as records go have forms
that are filled alike (`Contents.form_alike`), and these are filled with equal values where the
children have equal records (`Form.Alike.same`).  No digits are needed here; but a number must not
be recorded as a not-number, which would differ from itself.
-/

namespace SyntaxForest

/-! ## Forms that are filled alike -/

/-- The entries are filled with equal values if corresponding children are recorded alike. -/
inductive Entry.Alike (R : NodeIndex → NodeIndex → Prop) : Entry → Entry → Prop where
  | value {v w : Json} (h : v.same w) : Alike R (.value v) (.value w)
  | child {x y : Link} (h : Option.Rel R x y) : Alike R (.child x) (.child y)
  | children {xs ys : List Link} (h : List.Forall₂ (Option.Rel R) xs ys) :
    Alike R (.children xs) (.children ys)

/-- The forms have entries of the same names in the same order that are filled alike. -/
def Form.Alike (R : NodeIndex → NodeIndex → Prop) (form form' : Form) : Prop :=
  List.Forall₂ (fun a b => a.1 = b.1 ∧ a.2.Alike R b.2) form form'

section Filling

variable {R : NodeIndex → NodeIndex → Prop} {look look' : Link → Except TreeError Json}
  (equal : ∀ {x y v w}, R x y → look (some x) = .ok v → look' (some y) = .ok w → v.same w)
include equal

theorem Entry.Alike.same {entry entry' : Entry} (h : entry.Alike R entry') {v w : Json}
    (fills : entry.Fills look v) (fills' : entry'.Fills look' w) : v.same w := by
  cases h with
  | value h =>
    obtain ⟨rfl, -⟩ := fills
    obtain ⟨rfl, -⟩ := fills'
    exact h
  | child h =>
    cases h with
    | none =>
      obtain rfl : v = .null := fills
      obtain rfl : w = .null := fills'
      rfl
    | some h => exact equal h fills fills'
  | children h =>
    obtain ⟨items, rfl, hitems⟩ := fills
    obtain ⟨others, rfl, hothers⟩ := fills'
    show Json.sameItems items others
    rw [Json.sameItems_iff]
    induction h generalizing items others with
    | nil =>
      cases hitems
      cases hothers
      exact .nil
    | cons first _ ih =>
      cases hitems with
      | cons found rest =>
        cases hothers with
        | cons found' rest' =>
          obtain ⟨x, rfl, hx⟩ := found
          obtain ⟨y, rfl, hy⟩ := found'
          cases first with
          | some h => exact .cons (equal h hx hy) (ih _ rest _ rest')

/-- **Forms that are filled alike are filled with equal values.** -/
theorem Form.Alike.same {form form' : Form} (h : form.Alike R form')
    {own own' : List (String × Json)} (filled : form.Filled look own)
    (filled' : form'.Filled look' own') :
    List.Forall₂ (fun a b => a.1 = b.1 ∧ a.2.same b.2) own own' := by
  induction h generalizing own own' with
  | nil =>
    cases filled
    cases filled'
    exact .nil
  | cons first _ ih =>
    cases filled with
    | cons found rest =>
      cases filled' with
      | cons found' rest' =>
        refine .cons ⟨?_, first.2.same equal found.2 found'.2⟩ (ih rest rest')
        rw [found.1, first.1, found'.1]

end Filling

/-! ## Nodes -/

theorem Json.same_string (s : String) : (string s).same (string s) := beq_self_eq_true s

theorem Json.same_ofBinary64 (x : Binary64) : (ofBinary64 x).same (ofBinary64 x) := by
  rw [ofBinary64]
  split
  · next finite =>
    have number : x.isNaN = false := by
      simp only [Binary64.isFinite, Binary64.isNaN, decide_eq_true_eq, decide_eq_false_iff_not]
        at finite ⊢
      omega
    simp [Json.same, Binary64.sameNumber, number]
  · rfl

/-- The value of a number is equal to itself, for it is no not-number. -/
theorem Interchange.same_numberValue (token : String) :
    (numberValue token).same (numberValue token) := by
  unfold numberValue
  split
  · exact beq_self_eq_true _
  · split
    · exact Json.same_ofBinary64 _
    · rfl

namespace Contents

open Interchange (form)

variable {R : NodeIndex → NodeIndex → Prop} {c d : Contents}

/-- **Nodes that are the same as far as records go have forms that are filled alike.** -/
theorem form_alike (kind : c.kind = d.kind)
    (spelling : c.spelling?.bind Spelling.recorded? = d.spelling?.bind Spelling.recorded?)
    (links : List.Forall₂ (Option.Rel R) c.withFirstHandler.links d.withFirstHandler.links) :
    (form c).Alike R (form d) := by
  have text {name s : String} {rest rest' : Form} (h : rest.Alike R rest') :
      Form.Alike R ((name, .value (.string s)) :: rest) ((name, .value (.string s)) :: rest') :=
    .cons ⟨rfl, .value (Json.same_string s)⟩ h
  have child {name : String} {x y : Link} {rest rest' : Form} (h : Option.Rel R x y)
      (others : rest.Alike R rest') :
      Form.Alike R ((name, .child x) :: rest) ((name, .child y) :: rest') :=
    .cons ⟨rfl, .child h⟩ others
  cases c <;> cases d <;> cases kind <;>
    simp only [spelling?, Spelling.recorded?, Option.bind_some, Option.some.injEq,
      Spelling.name.injEq, Spelling.number.injEq, Spelling.string.injEq,
      Spelling.keyword.injEq] at spelling <;>
    simp only [withFirstHandler, Contents.links, List.forall₂_cons, forall₂_concat_iff] at links
  case name.name.refl c d =>
    simp only [form, spelling]
    exact text (text .nil)
  case numberLiteral.numberLiteral.refl c d =>
    simp only [form, spelling]
    exact text (.cons ⟨rfl, .value (Interchange.same_numberValue _)⟩ (text .nil))
  case stringLiteral.stringLiteral.refl c d =>
    simp only [form, spelling]
    exact text (text (text .nil))
  case keywordLiteral.keywordLiteral.refl c d =>
    simp only [form, spelling]
    cases d.keyword with
    | true | false | null => exact text (.cons ⟨rfl, .value rfl⟩ (text .nil))
    | this => exact text .nil
  case arrayLiteral | objectLiteral | block => exact text (.cons ⟨rfl, .children links⟩ .nil)
  case objectProperty => exact text (child links.1 (child links.2.1 (text .nil)))
  case expressionStatement => exact text (child links.1 .nil)
  case ifStatement => exact text (child links.1 (child links.2.1 (child links.2.2.1 .nil)))
  case tryStatement =>
    exact text (child links.1 (child (rel_head?_of_take_one links.2.1) (child links.2.2 .nil)))
  case catchClause => exact text (child links.1 (child links.2.1 (child links.2.2.1 .nil)))
  case forInLoop =>
    exact text (child links.1 (child links.2.1 (child links.2.2.1 (.cons ⟨rfl, .value rfl⟩ .nil))))
  case doLoop => exact text (child links.2.1 (child links.1 .nil))
  case whileLoop => exact text (child links.1 (child links.2.1 .nil))

end Contents

namespace Interchange

variable {f g : Forest} {x y : NodeIndex}

/-- What a record repeats is also the same of nodes that have none. -/
theorem sameMarks_getD {r s : Option NodeRecord} (h : Option.Rel NodeRecord.SameMarks r s) :
    (r.getD {}).SameMarks (s.getD {}) := by
  cases h with
  | none => exact ⟨rfl, rfl, fun a => by cases a <;> rfl⟩
  | some h => exact h

/-- The fields behind are equal where the marks are the same. -/
theorem same_trailer {r s : NodeRecord} (h : r.SameMarks s) :
    List.Forall₂ (fun a b => a.1 = b.1 ∧ a.2.same b.2) (trailer r) (trailer s) := by
  have change : r.change.name = s.change.name := by rw [h.change]
  have changeNoPropagate : r.changeNoPropagate.name = s.changeNoPropagate.name := by
    rw [h.changeNoPropagate]
  exact .cons ⟨rfl, h.attachment .criteria⟩ <| .cons ⟨rfl, h.attachment .dependencies⟩ <|
    .cons ⟨rfl, beq_iff_eq.mpr change⟩ <| .cons ⟨rfl, beq_iff_eq.mpr changeNoPropagate⟩ .nil

/-- No name is repeated in a record. -/
theorem nodup_names {look : Link → Except TreeError Json} {own : Fields}
    (filled : (formAt f x).Filled look own) (r : NodeRecord) :
    ((own ++ trailer r).map Prod.fst).Nodup := by
  have behind : (trailer r).map Prod.fst = Json.markNames := rfl
  rw [List.map_append, filled.map_fst, behind, List.nodup_append]
  refine ⟨nodup_formAt x, by decide, ?_⟩
  rintro name hname _ hmark rfl
  exact notMem_names_formAt hmark x hname

/-- Nodes that are the same as far as records go have forms that are filled alike. -/
theorem formAt_alike (hf : f.Intact) (hg : g.Intact) {R : NodeIndex → NodeIndex → Prop}
    (hx : f.contains (some x)) (kind : f.kind? (some x) = g.kind? (some y))
    (spelling : f.recordedSpelling? (some x) = g.recordedSpelling? (some y))
    (links : ∀ {c d : Contents}, f.contents? (some x) = some c → g.contents? (some y) = some d →
      c.kind = d.kind →
        List.Forall₂ (Option.Rel R) c.withFirstHandler.links d.withFirstHandler.links) :
    (formAt f x).Alike R (formAt g y) := by
  obtain ⟨hc, hd⟩ | ⟨c, d, hc, hd, kinds⟩ := Forest.contents?_cases hf hg kind
  · obtain ⟨h, hh⟩ := Forest.exists_header?_of_contains hx
    have hk := Forest.kind?_of_header? hh
    have bare : h.kind.isBare := by simpa [hc, hk] using hf.isSome_contents?_eq (some x)
    rw [formAt_of_bare hk bare hc, formAt_of_bare (kind ▸ hk) bare hd]
    exact .cons ⟨rfl, .value (Json.same_string _)⟩ .nil
  · rw [formAt_of_contents? hc, formAt_of_contents? hd]
    rw [Forest.recordedSpelling?, Forest.spelling?, hc, Forest.recordedSpelling?,
      Forest.spelling?, hd] at spelling
    exact Contents.form_alike kinds spelling (links hc hd kinds)

end Interchange

/-! ## Trees -/

namespace Forest

open Interchange

variable {f g : Forest} {x y : NodeIndex}

/-- **Trees that are the same as far as records go have equal records**, by induction on the
first. -/
theorem same_of_sameRecorded (hf : f.Linked) (hg : g.Linked)
    {records records' : NodeIndex → Except TreeError Json}
    (hrecords : (assembly f).Recursive records) (hrecords' : (assembly g).Recursive records')
    (hx : f.contains (some x)) {v w : Json} (hv : records x = .ok v) (hw : records' y = .ok w)
    (same : f.SameRecorded g (some x) (some y)) : v.same w := by
  induction hn : f.rank x using Nat.strongRecOn generalizing x y v w with
  | ind n ih =>
    obtain ⟨look, own, rfl, filled, parts⟩ := exists_filled hrecords hv
    obtain ⟨look', own', rfl, filled', parts'⟩ := exists_filled hrecords' hw
    cases same with
    | node kind spelling marks occupants =>
    have alike : (formAt f x).Alike
        (fun a b => a ∈ f.below x ∧ f.SameRecorded g (some a) (some b)) (formAt g y) := by
      refine formAt_alike hf.intact hg.intact hx kind spelling fun {c d} hc hd kinds => ?_
      have links : List.Forall₂ (f.SameRecorded g) c.withFirstHandler.links
          d.withFirstHandler.links := by
        refine (Contents.forall₂_links_iff (by simpa using kinds)).mpr fun part => ?_
        simpa [recordedOccupants, hc, hd] using occupants part
      refine (forall₂_mem links).imp fun a b h => ?_
      obtain ⟨ha, -, same⟩ := h
      cases same.rel with
      | none => exact .none
      | some same =>
        have step := hf.mem_recorded_iff.mp (mem_recorded_of_link hc ha)
        exact .some ⟨(List.mem_filter.mp step).1, same⟩
    have fields := alike.same (fun {a b v w} h ha hb => ih (f.rank a)
      (hn ▸ hf.rank_lt x a h.1) (hf.contains_of_mem_children h.1) (parts a v ha) (parts' b w hb)
      h.2 rfl) filled filled'
    exact Json.same_of_forall₂ (List.rel_append fields (same_trailer (sameMarks_getD marks)))
      (nodup_names filled' _)

end Forest

/-- **A record loses only what is known to be lost.**  Trees of forests that were reached, in which
the tokens of numbers start with digits, have equal records, whatever the order of fields, exactly
if they are the same as far as records go. -/
theorem Reached.same_record_iff {f g : Forest} {loose loose' : List NodeIndex}
    (hf : Reached f loose) (hg : Reached g loose') {x y : Link} {v w : Json}
    (hv : f.record x = .ok v) (hw : g.record y = .ok w)
    (digits : f.DigitsFirst x) (digits' : g.DigitsFirst y) : v.same w ↔ f.SameRecorded g x y := by
  have linked := hf.tended.linked
  have linked' := hg.tended.linked
  obtain ⟨hx, -, complete⟩ := (linked.record_succeeds_iff x).mp ⟨v, hv⟩
  obtain ⟨hy, -, complete'⟩ := (linked'.record_succeeds_iff y).mp ⟨w, hw⟩
  obtain ⟨records, hrecords, -⟩ := (Interchange.follows f).existsUnique_recursive linked.acyclic
  obtain ⟨records', hrecords', -⟩ := (Interchange.follows g).existsUnique_recursive linked'.acyclic
  rw [Forest.record_eq] at hv hw
  replace hv := (Interchange.follows f).resultFor_eq_ok (Interchange.thorough f) linked.acyclic
    hrecords hv
  replace hw := (Interchange.follows g).resultFor_eq_ok (Interchange.thorough g) linked'.acyclic
    hrecords' hw
  cases x with
  | none => cases hx
  | some x =>
    cases y with
    | none => cases hy
    | some y =>
      constructor
      · intro same
        exact Forest.sameRecorded_of_same linked linked' hrecords hrecords' hx hy hv hw same
          (fun z hz => ⟨(complete z hz).1, digits z (linked.mem_preorder_of_follows hx hz)⟩)
          (fun z hz => ⟨(complete' z hz).1, digits' z (linked'.mem_preorder_of_follows hy hz)⟩)
      · exact Forest.same_of_sameRecorded linked linked' hrecords hrecords' hx hv hw

/-- A `try` around a loop, and a clone of it.  The clone gets a second handler and an annotation
set without records, and the loop in it is made one over values. -/
def Command.attempts : List (Nat × Command) :=
  [(1, .construct (.node .tryStatement 0 0)), (2, .construct (.node .block 0 0)),
    (3, .construct (.node .forInLoop 0 0)), (4, .construct (.name 0 "a")),
    (5, .construct (.number 0 "1")), (6, .construct (.node .emptyStatement 0 0)),
    (7, .construct (.node .catchClause 0 0)), (8, .construct (.name 0 "e")),
    (9, .construct (.node .block 0 0)), (0, .edit (.setChild .iterator (some 2) (some 3))),
    (0, .edit (.setChild .iteratedObject (some 2) (some 4))),
    (0, .edit (.setChild .body (some 2) (some 5))),
    (0, .edit (.append .statements (some 1) (some 2))),
    (0, .edit (.setChild .tryBlock (some 0) (some 1))),
    (0, .edit (.setChild .varName (some 6) (some 7))),
    (0, .edit (.setChild .handlerBody (some 6) (some 8))),
    (0, .edit (.append .catchClauses (some 0) (some 6))), (0, .clone (some 0) none),
    (10, .construct (.node .catchClause 0 0)),
    (0, .edit (.append .catchClauses (some 9) (some 18))),
    (0, .edit (.write (.isForEach true) (some 11))),
    (0, .edit (.mark (.attach .criteria .empty) (some 9)))]

/-- The two trees are recorded alike, and they are the same but for what a record loses. -/
theorem same_record_attempts :
    (Command.perform Command.attempts).1.SameRecorded (Command.perform Command.attempts).1
        (some 0) (some 9) ∧
      ¬ (Command.perform Command.attempts).1.Same (Command.perform Command.attempts).1
        (some 0) (some 9) := by
  have reached := reached_perform Command.attempts
  have alike : (match (Command.perform Command.attempts).1.record (some 0),
      (Command.perform Command.attempts).1.record (some 9) with
    | .ok v, .ok w => v.same w
    | _, _ => false) = true := by
    decide +kernel
  have digits : ∀ x, x = some 0 ∨ x = some 9 →
      (Command.perform Command.attempts).1.DigitsFirst x := by
    unfold Forest.DigitsFirst
    rintro x (rfl | rfl) <;> decide +kernel
  constructor
  · split at alike
    · next v w hv hw =>
      exact (reached.same_record_iff reached hv hw (digits _ (.inl rfl)) (digits _ (.inr rfl))).mp
        alike
    · cases alike
  · intro same
    have shape := same.sameShape_eq reached.tended.linked reached.tended.linked
    have other : (Command.perform Command.attempts).1.sameShape (some 0)
        (Command.perform Command.attempts).1 (some 9) = false := by
      decide +kernel
    rw [other] at shape
    cases shape

end SyntaxForest
