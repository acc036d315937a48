import SyntaxForest.Proofs.EqualRecords
import SyntaxForest.Proofs.RecordedContents
import SyntaxForest.Proofs.Unmarked

/-!
# What is recovered from records

Trees whose records are equal JSON values are the same as far as records go (`Forest.SameRecorded`):
slot by slot and list by list they have nodes of the same kinds, in the leaves with the same texts,
and the same marks everywhere.  Not compared is what records leave out: all handlers of a `try` but
the first, whether a loop over an object is one over its values, labels, positions, destructuring
data and, of a number, what is not read from its token.

Node by node, the entries of two forms are matched where the records are equal
(`Interchange.EntriesMatched`).  The type then tells the kinds, for literals together with the value
and the text (`EntriesMatched.kind_and_spelling`); knowing the kinds, the entries tell which links
correspond (`EntriesMatched.links`); and the fields behind tell the marks (`sameMarks_of_same`).
For corresponding links the records are again equal, which carries the induction over the tree
(`Forest.sameRecorded_of_same`).
-/

namespace SyntaxForest

/-- The marks that a record repeats are the same.  A set that was never attached counts as empty. -/
structure NodeRecord.SameMarks (r s : NodeRecord) : Prop where
  change : r.change = s.change
  changeNoPropagate : r.changeNoPropagate = s.changeNoPropagate
  attachment : ∀ a,
    ((r.attachment a).getD .empty).toJson.same ((s.attachment a).getD .empty).toJson

namespace Forest

/-- What a record keeps of what source code shows of a node. -/
def recordedSpelling? (f : Forest) (x : Link) : Option Spelling :=
  (f.spelling? x).bind Spelling.recorded?

/-- What stands in a part of a node, of the handlers of a `try` only the first. -/
def recordedOccupants (f : Forest) (x : Link) (part : Part) : List Link :=
  ((f.contents? x).map (·.withFirstHandler.occupants part)).getD []

/-- **Two trees are the same as far as records go**: they have nodes of the same kinds in the same
parts all the way down, when of the handlers of each `try` all but the first are left out, with the
same texts in the leaves and the same marks. -/
inductive SameRecorded (f g : Forest) : Link → Link → Prop where
  | absent : SameRecorded f g none none
  | node {x y : NodeIndex} (kind : f.kind? (some x) = g.kind? (some y))
      (spelling : f.recordedSpelling? (some x) = g.recordedSpelling? (some y))
      (marks : Option.Rel NodeRecord.SameMarks (f.record? (some x)) (g.record? (some y)))
      (parts : ∀ part, List.Forall₂ (SameRecorded f g)
        (f.recordedOccupants (some x) part) (g.recordedOccupants (some y) part)) :
    SameRecorded f g (some x) (some y)

/-- What it takes to tell a node by its record: nothing is missing, and the token of a number starts
with an ASCII digit. -/
structure Legible (f : Forest) (x : NodeIndex) : Prop where
  complete : f.Complete x
  digit : ∀ token ∈ f.token? (some x), startsWithDigit token

/-- The links that stand in one of two trees are those that stand in the other. -/
theorem SameRecorded.rel {f g : Forest} {x y : Link} (h : f.SameRecorded g x y) :
    Option.Rel (fun a b => f.SameRecorded g (some a) (some b)) x y := by
  cases h with
  | absent => exact .none
  | node kind spelling marks parts => exact .some (.node kind spelling marks parts)

/-- The token of every number in a tree starts with an ASCII digit. -/
def DigitsFirst (f : Forest) (x : Link) : Prop :=
  ∀ y ∈ f.preorder x, ∀ token ∈ f.token? (some y), startsWithDigit token

end Forest

/-! ## Nodes -/

/-- Nodes that source code spells alike are of one kind. -/
theorem Forest.kind?_eq_of_spelling? {f g : Forest} {x y : Link} {s : Spelling}
    (hs : f.spelling? x = some s) (ht : g.spelling? y = some s) : f.kind? x = g.kind? y := by
  obtain ⟨c, hc, hs⟩ := Option.bind_eq_some_iff.mp hs
  obtain ⟨d, hd, ht⟩ := Option.bind_eq_some_iff.mp ht
  rw [kind?_of_contents? hc, kind?_of_contents? hd, Contents.kind_of_spelling? hs,
    Contents.kind_of_spelling? ht]

namespace Interchange

variable {f g : Forest} {x y : NodeIndex}

theorem formAt_of_contents? {c : Contents} (hc : f.contents? (some x) = some c) :
    formAt f x = form c := by
  rw [Forest.contents?] at hc
  obtain ⟨h, hh, held⟩ := Option.bind_eq_some_iff.mp hc
  rw [formAt, hh]
  simp only [held]

theorem formAt_of_bare {k : Kind} (hk : f.kind? (some x) = some k) (bare : k.isBare)
    (empty : f.contents? (some x) = none) :
    formAt f x = [("type", .value (.string k.recordType))] := by
  obtain ⟨h, hh, rfl⟩ := Option.map_eq_some_iff.mp hk
  rw [Forest.contents?, hh, Option.bind_some] at empty
  rw [formAt, hh]
  simp only [empty]
  cases kind : h.kind <;> first | rfl | (rw [kind] at bare; cases bare)

/-- The form of a node starts with its type. -/
theorem type_mem_formAt (hf : f.Intact) {k : Kind} (hk : f.kind? (some x) = some k) :
    ("type", .value (.string (recordTypeOf k (f.spelling? (some x))))) ∈ formAt f x := by
  cases hc : f.contents? (some x) with
  | none =>
    have bare : k.isBare := by simpa [hc, hk] using hf.isSome_contents?_eq (some x)
    rw [formAt_of_bare hk bare hc, Forest.spelling?, hc]
    exact List.mem_cons_self
  | some c =>
    obtain rfl := Option.some.inj ((Forest.kind?_of_contents? hc).symm.trans hk)
    rw [formAt_of_contents? hc, Forest.spelling?, hc, Option.bind_some]
    cases c with
    | keywordLiteral c =>
      obtain ⟨keyword⟩ := c
      cases keyword <;> exact List.mem_cons_self
    | _ => exact List.mem_cons_self

/-- Where the records of two nodes are equal, their entries of one name are matched. -/
def EntriesMatched (f g : Forest) (look look' : Link → Except TreeError Json)
    (x y : NodeIndex) : Prop :=
  ∀ {name entry entry'}, (name, entry) ∈ formAt f x → (name, entry') ∈ formAt g y →
    entry.Matched look look' entry'

variable {look look' : Link → Except TreeError Json}

theorem EntriesMatched.of_form (matched : EntriesMatched f g look look' x y) {c d : Contents}
    (hc : f.contents? (some x) = some c) (hd : g.contents? (some y) = some d) {name : String}
    {entry entry' : Entry} (h : (name, entry) ∈ form c) (h' : (name, entry') ∈ form d) :
    entry.Matched look look' entry' := by
  rw [← formAt_of_contents? hc] at h
  rw [← formAt_of_contents? hd] at h'
  exact matched h h'

/-- A literal has its value and its text in its form, and the token of a number is as it has to
be. -/
theorem exists_literal (legible : f.Legible x) {c : Contents}
    (hc : f.contents? (some x) = some c) (literal : c.kind.isLiteral)
    (other : f.spelling? (some x) ≠ some (.keyword .this)) : ∃ s v text,
      f.spelling? (some x) = some s ∧ s.Literal v text ∧
        (∀ token, s = .number (some token) → startsWithDigit token) ∧
          ("value", .value v) ∈ formAt f x ∧ ("raw", .value (.string text)) ∈ formAt f x := by
  rw [Forest.spelling?, hc, Option.bind_some] at other ⊢
  obtain ⟨s, v, text, hs, lit, value, raw⟩ :=
    Contents.exists_literal (legible.complete c hc) literal other
  rw [← formAt_of_contents? hc] at value raw
  refine ⟨s, v, text, hs, lit, ?_, value, raw⟩
  rintro token rfl
  refine legible.digit token ?_
  rw [Forest.token?, hc]
  cases c with
  | numberLiteral c => simpa [Contents.spelling?] using hs
  | _ => cases hs

/-- Literals whose records are equal are spelled alike. -/
theorem EntriesMatched.spelling_of_literals (matched : EntriesMatched f g look look' x y)
    (legible : f.Legible x) (legible' : g.Legible y) {c d : Contents}
    (hc : f.contents? (some x) = some c) (hd : g.contents? (some y) = some d)
    (literal : c.kind.isLiteral) (literal' : d.kind.isLiteral)
    (other : f.spelling? (some x) ≠ some (.keyword .this))
    (other' : g.spelling? (some y) ≠ some (.keyword .this)) :
    ∃ s, f.spelling? (some x) = some s ∧ g.spelling? (some y) = some s := by
  obtain ⟨s, v, text, hs, lit, digit, value, raw⟩ := exists_literal legible hc literal other
  obtain ⟨t, w, text', ht, lit', digit', value', raw'⟩ :=
    exists_literal legible' hd literal' other'
  have texts : text = text' := beq_iff_eq.mp (matched raw raw').value
  obtain rfl := lit.unique lit' (matched value value').value texts digit digit'
  exact ⟨s, hs, ht⟩

/-- Other nodes of one kind whose records are equal are spelled alike, as far as records go. -/
theorem EntriesMatched.recordedSpelling_of_kind (matched : EntriesMatched f g look look' x y)
    (hf : f.Intact) (hg : g.Intact) {k : Kind} (hk : f.kind? (some x) = some k)
    (hl : g.kind? (some y) = some k) (other : k.isLiteral = false) :
    f.recordedSpelling? (some x) = g.recordedSpelling? (some y) := by
  rw [Forest.recordedSpelling?, Forest.spelling?, Forest.recordedSpelling?, Forest.spelling?]
  obtain ⟨hc, hd⟩ | ⟨c, d, hc, hd, kinds⟩ := Forest.contents?_cases hf hg (hk.trans hl.symm)
  · rw [hc, hd]
  · obtain rfl := Option.some.inj ((Forest.kind?_of_contents? hc).symm.trans hk)
    rw [hc, hd]
    exact Contents.recordedSpelling_eq kinds other fun hv hw => (matched.of_form hc hd hv hw).value

/-- **Nodes whose records are equal are of one kind and spelled alike**, as far as records go. -/
theorem EntriesMatched.kind_and_spelling (matched : EntriesMatched f g look look' x y)
    (hf : f.Intact) (hg : g.Intact) (hx : f.contains (some x)) (hy : g.contains (some y))
    (legible : f.Legible x) (legible' : g.Legible y) :
    f.kind? (some x) = g.kind? (some y) ∧
      f.recordedSpelling? (some x) = g.recordedSpelling? (some y) := by
  obtain ⟨h, hh⟩ := Forest.exists_header?_of_contains hx
  obtain ⟨h', hh'⟩ := Forest.exists_header?_of_contains hy
  have hk := Forest.kind?_of_header? hh
  have hl := Forest.kind?_of_header? hh'
  -- what is spelled alike is of one kind, so for most nodes it is enough to compare spellings
  have enough (alike : ∃ s, f.spelling? (some x) = some s ∧ g.spelling? (some y) = some s) :
      f.kind? (some x) = g.kind? (some y) ∧
        f.recordedSpelling? (some x) = g.recordedSpelling? (some y) := by
    obtain ⟨s, hs, ht⟩ := alike
    refine ⟨Forest.kind?_eq_of_spelling? hs ht, ?_⟩
    rw [Forest.recordedSpelling?, hs, Forest.recordedSpelling?, ht]
  have literals (other : f.spelling? (some x) ≠ some (.keyword .this))
      (other' : g.spelling? (some y) ≠ some (.keyword .this)) (literal : h.kind.isLiteral)
      (literal' : h'.kind.isLiteral) :
      ∃ s, f.spelling? (some x) = some s ∧ g.spelling? (some y) = some s := by
    have held {k : Kind} (literal : k.isLiteral) : k.isBare = false := by
      cases k <;> first | rfl | cases literal
    obtain ⟨c, hc, kind⟩ := hf.exists_contents? hk (held literal)
    obtain ⟨d, hd, kind'⟩ := hg.exists_contents? hl (held literal')
    exact matched.spelling_of_literals legible legible' hc hd (kind ▸ literal) (kind' ▸ literal')
      other other'
  have types := beq_iff_eq.mp (matched (type_mem_formAt hf hk) (type_mem_formAt hg hl)).value
  obtain ⟨this, this'⟩ | ⟨other, other', same | ⟨literal, literal'⟩⟩ := recordTypeOf_cases types
  · exact enough ⟨_, this, this'⟩
  · cases literal : h.kind.isLiteral with
    | true => exact enough (literals other other' literal (same ▸ literal))
    | false =>
      rw [← same] at hl
      exact ⟨hk.trans hl.symm, matched.recordedSpelling_of_kind hf hg hk hl literal⟩
  · exact enough (literals other other' literal literal')

/-- **Nodes of one kind whose records are equal have corresponding links.** -/
theorem EntriesMatched.links (matched : EntriesMatched f g look look' x y) (hf : f.Linked)
    (hg : g.Linked) (objects : AnswersObjects look) (objects' : AnswersObjects look')
    {c d : Contents} (hc : f.contents? (some x) = some c) (hd : g.contents? (some y) = some d)
    (kind : c.kind = d.kind) : List.Forall₂ (Option.Rel (EqualParts look look'))
      c.withFirstHandler.links d.withFirstHandler.links :=
  Contents.forall₂_links kind (hf.entries_of_contents? hc) (hg.entries_of_contents? hd)
    (fun _ {_ _} h => (matched.of_form hc hd h.1 h.2).child objects objects')
    fun _ {_ _} h => (matched.of_form hc hd h.1 h.2).children

/-- No entry of a node has a name of the annotator's fields. -/
theorem notMem_names_formAt {name : String} (hname : name ∈ Json.markNames) (x : NodeIndex) :
    name ∉ (formAt f x).map Prod.fst := by
  have ofForm (c : Contents) : ∀ name ∈ Json.markNames, name ∉ (form c).map Prod.fst := by
    cases c with
    | keywordLiteral c =>
      obtain ⟨keyword⟩ := c
      cases keyword <;> simp [form, keywordFields, Json.markNames]
    | _ => simp [form, Json.markNames]
  unfold formAt
  cases f.header? (some x) with
  | none => exact List.not_mem_nil
  | some h =>
    dsimp only
    cases f.held? h with
    | some c => exact ofForm c name hname
    | none =>
      obtain ⟨-, typed⟩ | ⟨c, -, -, fresh⟩ := bare_cases h.kind
      · rw [typed]
        revert name
        simp [Json.markNames]
      · rw [fresh]
        exact ofForm c name hname

/-- **Nodes whose records are equal have the same marks.** -/
theorem sameMarks_of_same {own own' : Fields} {r s : NodeRecord}
    (filled : (formAt f x).Filled look own) (filled' : (formAt g y).Filled look' own')
    (same : (Json.object (own ++ trailer r)).same (.object (own' ++ trailer s))) :
    r.SameMarks s := by
  have equal (name : String) (hname : name ∈ Json.markNames) {v w : Json}
      (hv : (trailer r).lookup name = some v) (hw : (trailer s).lookup name = some w) :
      v.same w := by
    rw [← filled.lookup_behind (notMem_names_formAt hname x)] at hv
    rw [← filled'.lookup_behind (notMem_names_formAt hname y)] at hw
    exact Json.same_of_lookup same hv hw
  have names {c c' : Change} (h : (Json.string c.name).same (.string c'.name)) : c = c' := by
    have h := congrArg Change.ofName? (beq_iff_eq.mp h)
    rw [Change.ofName?_name, Change.ofName?_name] at h
    exact Option.some.inj h
  refine ⟨names (equal "change" (by decide) rfl rfl),
    names (equal "change-noprop" (by decide) rfl rfl), fun a => ?_⟩
  cases a with
  | criteria => exact equal "criteria" (by decide) rfl rfl
  | dependencies => exact equal "dependencies" (by decide) rfl rfl

end Interchange

/-! ## Trees -/

namespace Forest

variable {f g : Forest} {x y : NodeIndex}

theorem mem_recorded_of_link {c : Contents} (hc : f.contents? (some x) = some c) {z : NodeIndex}
    (h : some z ∈ c.withFirstHandler.links) : z ∈ f.recorded x := by
  rw [recorded, hc, Option.map_some, Option.getD_some, List.mem_filterMap]
  exact ⟨_, Contents.mem_embedded_of_link h, rfl⟩

theorem Follows.step {z u : NodeIndex} (h : z ∈ f.followed x) (below : f.Follows (some z) u) :
    f.Follows (some x) u := by
  obtain ⟨root, hroot, path⟩ := below
  obtain rfl := Option.some.inj hroot
  exact ⟨x, rfl, .head h path⟩

/-- Parts correspond where links do. -/
theorem forall₂_recordedOccupants (hf : f.Intact) (hg : g.Intact)
    (kind : f.kind? (some x) = g.kind? (some y)) {R : Link → Link → Prop}
    (links : ∀ {c d : Contents}, f.contents? (some x) = some c → g.contents? (some y) = some d →
      c.kind = d.kind → List.Forall₂ R c.withFirstHandler.links d.withFirstHandler.links)
    (part : Part) :
    List.Forall₂ R (f.recordedOccupants (some x) part) (g.recordedOccupants (some y) part) := by
  rw [recordedOccupants, recordedOccupants]
  obtain ⟨hc, hd⟩ | ⟨c, d, hc, hd, kinds⟩ := contents?_cases hf hg kind
  · rw [hc, hd]
    exact .nil
  · have links := links hc hd kinds
    rw [hc, hd]
    exact (Contents.forall₂_links_iff (by simpa using kinds)).mp links part

open Interchange

/-- What recursion gives for nodes are objects. -/
theorem answersObjects {records : NodeIndex → Except TreeError Json}
    (hrecords : (assembly f).Recursive records) {look : Link → Except TreeError Json}
    (parts : ∀ z part, look (some z) = .ok part → records z = .ok part) : AnswersObjects look := by
  intro z part hz
  obtain ⟨_, _, rfl, -⟩ := exists_filled hrecords (parts z part hz)
  exact ⟨_, rfl⟩

/-- **Trees whose records are equal are the same as far as records go**, by induction on the first.
A record that is made by recursion is as good as one that recording answers. -/
theorem sameRecorded_of_same (hf : f.Linked) (hg : g.Linked)
    {records records' : NodeIndex → Except TreeError Json}
    (hrecords : (assembly f).Recursive records) (hrecords' : (assembly g).Recursive records')
    (hx : f.contains (some x)) (hy : g.contains (some y))
    {v w : Json} (hv : records x = .ok v) (hw : records' y = .ok w) (same : v.same w)
    (legible : ∀ z, f.Follows (some x) z → f.Legible z)
    (legible' : ∀ z, g.Follows (some y) z → g.Legible z) :
    f.SameRecorded g (some x) (some y) := by
  induction hn : f.rank x using Nat.strongRecOn generalizing x y v w with
  | ind n ih =>
    obtain ⟨look, own, rfl, filled, parts⟩ := exists_filled hrecords hv
    obtain ⟨look', own', rfl, filled', parts'⟩ := exists_filled hrecords' hw
    have matched : EntriesMatched f g look look' x y :=
      filled.matched filled' (nodup_formAt x) (nodup_formAt y) same
    obtain ⟨kind, spelling⟩ := matched.kind_and_spelling hf.intact hg.intact hx hy
      (legible x ⟨x, rfl, .refl⟩) (legible' y ⟨y, rfl, .refl⟩)
    have marks : Option.Rel NodeRecord.SameMarks (f.record? (some x)) (g.record? (some y)) := by
      have marks := sameMarks_of_same filled filled' same
      obtain ⟨r, hr⟩ := Option.isSome_iff_exists.mp (hf.intact.isSome_record?.trans hx)
      obtain ⟨s, hs⟩ := Option.isSome_iff_exists.mp (hg.intact.isSome_record?.trans hy)
      rw [hr, hs] at marks ⊢
      exact .some marks
    refine .node kind spelling marks ?_
    refine forall₂_recordedOccupants hf.intact hg.intact kind fun {c d} hc hd kinds => ?_
    have links := matched.links hf hg (answersObjects hrecords parts)
      (answersObjects hrecords' parts') hc hd kinds
    -- corresponding links go down to nodes of lower rank, whose records are equal
    refine (forall₂_mem links).imp fun a b h => ?_
    obtain ⟨ha, hb, corresponds⟩ := h
    cases corresponds with
    | none => exact .absent
    | @some a b equal =>
      obtain ⟨v, w, hv, hw, same⟩ := equal
      have step := hf.mem_recorded_iff.mp (mem_recorded_of_link hc ha)
      have step' := hg.mem_recorded_iff.mp (mem_recorded_of_link hd hb)
      have below := (List.mem_filter.mp step).1
      have below' := (List.mem_filter.mp step').1
      exact ih (f.rank a) (hn ▸ hf.rank_lt x a below) (hf.contains_of_mem_children below)
        (hg.contains_of_mem_children below') (parts a v hv) (parts' b w hw) same
        (fun z hz => legible z (hz.step step)) (fun z hz => legible' z (hz.step step')) rfl

end Forest

end SyntaxForest
