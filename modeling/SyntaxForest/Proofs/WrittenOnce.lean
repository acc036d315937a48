import SyntaxForest.Proofs.Fidelity
import SyntaxForest.Proofs.Untouched

/-!
# What is written once

The kind and the identity of a node are given to it when it is made.  The token of a number and the
two attachments may be missing at first, but whoever writes them asks whether they are there.  So
none of the four is ever replaced, by whatever commands, as long as the forest is not cleared.

* `Forest.Carries` — what a node has of the four, another one has as well, maybe in a later forest.
  This is a preorder, so it is enough to know it of a step;
* `Forest.Repeats` — both have the same of the four, as a copy and its source when it is made;
* `Command.Effect.carries`, `Command.carries_resume` — a step, and a run;
* `Forest.Sealed` — what is carried cannot be written again.

The one step with an argument is an edit of the very node.  `Edit.Written` keeps the condition under
which a value was written, and it is this condition that rules the edit out.
-/

namespace SyntaxForest

variable {f g : Forest}

/-! ## The four values -/

namespace Contents

/-- The token of a number, if there is one. -/
def token? : Contents → Option String
  | .numberLiteral c => c.token
  | _ => none

/-- A token does not depend on links. -/
theorem token?_scalars (c : Contents) : c.scalars.token? = c.token? := by cases c <;> rfl

end Contents

namespace Forest

/-- The records that are attached to a node under a name. -/
def attachment? (f : Forest) (x : Link) (attachment : Attachment) : Option AnnotationSet :=
  (f.record? x).bind (·.attachment attachment)

theorem token?_eq (x : Link) : f.token? x = ((f.contents? x).map (·.scalars)).bind (·.token?) := by
  rw [token?]
  cases f.contents? x with
  | none => rfl
  | some c => cases c <;> rfl

theorem id?_eq (x : Link) : f.id? x = ((f.record? x).map (·.withParent none)).map (·.id) := by
  rw [id?, Option.map_map]
  rfl

theorem attachment?_eq (x : Link) (attachment : Attachment) : f.attachment? x attachment =
    ((f.record? x).map (·.withParent none)).bind (·.attachment attachment) := by
  rw [attachment?]
  cases f.record? x with
  | none => rfl
  | some r => cases attachment <;> rfl

/-- What a node has in a forest of the values that are written once, a node has in another. -/
structure Carries (f : Forest) (x : Link) (g : Forest) (y : Link) : Prop where
  kind? : g.kind? y = f.kind? x
  id? : g.id? y = f.id? x
  token? : ∀ {t}, f.token? x = some t → g.token? y = some t
  attachment? : ∀ {attachment s}, f.attachment? x attachment = some s →
    g.attachment? y attachment = some s

/-- Two nodes have the same of the values that are written once. -/
structure Repeats (f : Forest) (x : Link) (g : Forest) (y : Link) : Prop where
  kind? : g.kind? y = f.kind? x
  id? : g.id? y = f.id? x
  token? : g.token? y = f.token? x
  attachment? : ∀ attachment, g.attachment? y attachment = f.attachment? x attachment

variable {h : Forest} {x y z : Link}

theorem Carries.refl (f : Forest) (x : Link) : f.Carries x f x :=
  ⟨rfl, rfl, fun ht => ht, fun hs => hs⟩

theorem Carries.trans (first : f.Carries x g y) (second : g.Carries y h z) : f.Carries x h z where
  kind? := second.kind?.trans first.kind?
  id? := second.id?.trans first.id?
  token? ht := second.token? (first.token? ht)
  attachment? hs := second.attachment? (first.attachment? hs)

theorem Carries.contains (t : f.Carries x g y) : g.contains y = f.contains x := by
  have known (k : Forest) (w : Link) : k.contains w = (k.kind? w).isSome := by
    rw [Forest.contains, Forest.kind?, Option.isSome_map]
  rw [known, known, t.kind?]

theorem Repeats.carries (t : f.Repeats x g y) : f.Carries x g y where
  kind? := t.kind?
  id? := t.id?
  token? ht := t.token?.trans ht
  attachment? hs := (t.attachment? _).trans hs

/-- Nodes that are alike but for their links have the same of the four. -/
theorem Repeats.of_values (kind : g.kind? y = f.kind? x)
    (scalars : (g.contents? y).map (·.scalars) = (f.contents? x).map (·.scalars))
    (record : (g.record? y).map (·.withParent none) = (f.record? x).map (·.withParent none)) :
    f.Repeats x g y where
  kind? := kind
  id? := by rw [id?_eq, record, ← id?_eq]
  token? := by rw [token?_eq, scalars, ← token?_eq]
  attachment? attachment := by rw [attachment?_eq, record, ← attachment?_eq]

/-- A node that is left as it was has the same of the four. -/
theorem Repeats.of_eq (header : g.header? y = f.header? x)
    (contents : g.contents? y = f.contents? x) (record : g.record? y = f.record? x) :
    f.Repeats x g y :=
  .of_values (by rw [Forest.kind?, header, Forest.kind?]) (by rw [contents]) (by rw [record])

end Forest

/-! ## Edits -/

namespace Edit

variable {e : Edit}

theorem kind_onHeader (h : Header) : (e.onHeader h).kind = h.kind := by
  cases e <;> rfl

theorem id_onRecord (r : NodeRecord) : (e.onRecord r).id = r.id := by
  cases e with
  | mark m _ => cases m with
    | attach attachment _ => cases attachment <;> rfl
    | _ => rfl
  | _ => rfl

/-- A token that is there is not written. -/
theorem Written.token?_onContents (w : Written f e g) {c : Contents} {t : String}
    (hc : f.contents? e.node = some c) (ht : c.token? = some t) :
    (e.onContents c).token? = some t := by
  cases w with
  | @write s node _ hc' free =>
    cases hc.symm.trans hc'
    cases c with
    | numberLiteral c =>
      cases s with
      | token v =>
        rw [Scalar.isFrozenIn, show c.token = some t from ht] at free
        cases free
      | _ => exact ht
    | _ => cases ht
  | mark | setRange => exact ht

/-- Records that are attached are not attached again. -/
theorem Written.attachment_onRecord (w : Written f e g) {r : NodeRecord}
    {attachment : Attachment} {s : AnnotationSet} (hr : f.record? e.node = some r)
    (hs : r.attachment attachment = some s) : (e.onRecord r).attachment attachment = some s := by
  cases w with
  | @mark m node _ hr' free =>
    cases hr.symm.trans hr'
    cases m with
    | attach other records =>
      have unattached : r.attachment other = none := by simpa [Mark.frozenIn?] using free
      have apart : attachment ≠ other := by
        rintro rfl
        cases hs.symm.trans unattached
      cases attachment <;> cases other <;> first | exact hs | exact absurd rfl apart
    | _ => cases attachment <;> exact hs
  | write | setRange => exact hs

/-- An edit of a value replaces none of the four values. -/
theorem Written.carries (hf : f.Intact) (w : Written f e g) (x : Link) : f.Carries x g x := by
  by_cases hx : x = e.node
  · subst hx
    obtain ⟨header, contents, record⟩ := w.eq_node hf
    refine ⟨?_, ?_, fun {t} ht => ?_, fun {attachment s} hs => ?_⟩
    · rw [Forest.kind?, header, Option.map_map, Forest.kind?]
      exact Option.map_congr fun h _ => kind_onHeader h
    · rw [Forest.id?, record, Option.map_map, Forest.id?]
      exact Option.map_congr fun r _ => id_onRecord r
    · rw [Forest.token?_eq, Option.bind_eq_some_iff] at ht
      obtain ⟨c', hc', ht⟩ := ht
      obtain ⟨c, hc, rfl⟩ := Option.map_eq_some_iff.mp hc'
      rw [Contents.token?_scalars] at ht
      rw [Forest.token?_eq, contents, hc, Option.map_some, Option.map_some, Option.bind_some,
        Contents.token?_scalars]
      exact w.token?_onContents hc ht
    · obtain ⟨r, hr, hs⟩ := Option.bind_eq_some_iff.mp hs
      rw [Forest.attachment?, record, hr]
      exact w.attachment_onRecord hr hs
  · obtain ⟨header, contents, record⟩ := w.eq_elsewhere hf hx
    exact (Forest.Repeats.of_eq header contents record).carries

/-- An edit of a part leaves the four values. -/
theorem Transfer.repeats {part : Part} (t : e.Transfer f g part) (x : Link) :
    f.Repeats x g x :=
  .of_values (t.kind? x) (t.scalars x) (t.withParent_record x)

end Edit

/-! ## Copies -/

/-- The copy of a node has the same of the four values. -/
theorem Forest.Cloned.repeats {source : NodeIndex} {parent : Link} (t : f.Cloned g source parent)
    {x : NodeIndex} (hx : x ∈ f.preorder (some source)) :
    f.Repeats (some x) g (some (f.copyOf source x)) := by
  refine .of_values (t.kind?_copy hx) ?_ ?_
  · rw [t.contents? hx, Option.map_map]
    exact Option.map_congr fun c _ => Contents.scalars_rewire ..
  · rw [t.record? hx, Option.map_map]
    rfl

/-- What was there before a clone has the same of the four values. -/
theorem Forest.Cloned.repeats_old {source : NodeIndex} {parent : Link}
    (t : f.Cloned g source parent) {x : Link} (hx : f.contains x) : f.Repeats x g x :=
  .of_eq (t.header?_old hx) (t.contents?_old hx) (t.record?_old hx)

/-! ## Commands -/

namespace Command

/-- **A command replaces none of the four values, unless it clears the forest.** -/
theorem Effect.carries (hf : f.Linked) {c : Command} {answer : Option NodeIndex}
    (effect : Effect f c answer g) (stays : c ≠ .clear) {x : Link} (hx : f.contains x) :
    f.Carries x g x := by
  cases effect with
  | construct id c =>
    have old := Forest.ne_size_of_contains hx
    refine (Forest.Repeats.of_eq ?_ ?_ ?_).carries
    · rw [Forest.construct, Forest.header?_push, if_neg old]
    · rw [Forest.contents?_construct hf, if_neg old]
    · rw [Forest.construct, Forest.record?_push _ _ _ _ _ hf.intact, if_neg old]
  | part _ _ t => exact (t.repeats x).carries
  | value _ w => exact w.carries hf.intact x
  | clone _ t => exact (t.repeats_old hx).carries
  | clear => exact absurd rfl stays

/-- One command, whether it fails or not. -/
theorem carries_advance (hf : f.Linked) {step : Nat × Command} (stays : step.2 ≠ .clear) {x : Link}
    (hx : f.contains x) : f.Carries x (advance (f, []) step).1 x := by
  unfold advance
  cases run : (step.2.run step.1).run f with
  | ok answer g => exact (effect_of_run_ok hf run).carries hf stays hx
  | error err g => exact eq_of_run_error hf run ▸ .refl f x

/-- **Commands replace none of the four values**, however many they are. -/
theorem carries_resume {steps : List (Nat × Command)} (hf : f.Linked)
    (stays : ∀ step ∈ steps, step.2 ≠ .clear) {x : Link} (hx : f.contains x) :
    f.Carries x (resume f steps) x := by
  induction steps generalizing f with
  | nil => exact .refl f x
  | cons step steps ih =>
    rw [List.forall_mem_cons] at stays
    have first := carries_advance hf stays.1 hx
    rw [resume_cons]
    exact first.trans (ih (linked_advance hf step) stays.2 (first.contains.trans hx))

end Command

/-! ## What cannot be written -/

namespace Forest

variable {x y : Link}

/-- The token that is written is there afterwards. -/
theorem token?_of_run (hf : f.Intact) {v : String}
    (run : (Edit.write (.token v) x).run.run f = .ok () g) : g.token? x = some v := by
  rw [Edit.run, Edit.run_write] at run
  split at run
  · cases run
  · next c asked =>
    obtain ⟨hc, admitted⟩ := contentsOf_eq_ok_iff.mp asked
    obtain ⟨number, rfl⟩ : ∃ number, c = .numberLiteral number := by
      cases c with
      | numberLiteral number => exact ⟨number, rfl⟩
      | _ => cases admitted
    split at run
    · cases run
    · cases run
      rw [token?, contents?_setContents hf hc (Scalar.kind_write ..), if_pos rfl]
      rfl

/-- What is attached is there afterwards. -/
theorem attachment?_of_run {attachment : Attachment} {records : AnnotationSet}
    (run : (Edit.mark (.attach attachment records) x).run.run f = .ok () g) :
    g.attachment? x attachment = some records := by
  rw [Edit.run, Edit.run_mark] at run
  split at run
  · cases run
  · next r hr =>
    split at run
    · cases run
    · cases run
      rw [attachment?, record?_modifyRecord, if_pos rfl, hr]
      cases attachment <;> rfl

/-- A node that has a token is there. -/
theorem contains_of_token? {t : String} (ht : f.token? x = some t) : f.contains x := by
  rw [token?_eq] at ht
  obtain ⟨c', hc', -⟩ := Option.bind_eq_some_iff.mp ht
  obtain ⟨c, hc, -⟩ := Option.map_eq_some_iff.mp hc'
  exact contains_of_contents? hc

/-- A node to which records are attached is there. -/
theorem contains_of_attachment? (hf : f.Intact) {attachment : Attachment} {s : AnnotationSet}
    (hs : f.attachment? x attachment = some s) : f.contains x := by
  obtain ⟨r, hr, -⟩ := Option.bind_eq_some_iff.mp hs
  rw [← hf.isSome_record?, hr]
  rfl

/-- A token is not written over. -/
theorem run_write_token {t : String} (ht : f.token? x = some t) (v : String) :
    (Edit.write (.token v) x).run.run f = .error (.valueAlreadySet .numberLiteral .token) f := by
  rw [token?] at ht
  split at ht
  · next c hc =>
    have asked : f.contentsOf (Scalar.token v).owner x = .ok (.numberLiteral c) :=
      contentsOf_eq_ok_iff.mpr ⟨hc, rfl⟩
    rw [Edit.run, Edit.run_write, asked]
    simp only [Scalar.isFrozenIn, ht, Option.isSome_some, if_true]
    rfl
  · cases ht

/-- Attached records are not replaced. -/
theorem run_mark_attach {attachment : Attachment} {s : AnnotationSet}
    (hs : f.attachment? x attachment = some s) (records : AnnotationSet) :
    (Edit.mark (.attach attachment records) x).run.run f =
      .error (.annotationsFrozen x attachment) f := by
  obtain ⟨r, hr, hs⟩ := Option.bind_eq_some_iff.mp hs
  rw [Edit.run, Edit.run_mark, hr]
  simp only [Mark.frozenIn?, hs, Option.isSome_some, if_true]

/-- What a node has of the values that are written once, another one has for good: to write it again
is an error and changes nothing. -/
structure Sealed (f : Forest) (x : Link) (g : Forest) (y : Link) : Prop
    extends f.Carries x g y where
  token_refused : ∀ {t}, f.token? x = some t → ∀ v,
    (Edit.write (.token v) y).run.run g = .error (.valueAlreadySet .numberLiteral .token) g
  attachment_refused : ∀ {attachment s}, f.attachment? x attachment = some s → ∀ records,
    (Edit.mark (.attach attachment records) y).run.run g =
      .error (.annotationsFrozen y attachment) g

theorem Carries.sealed (t : f.Carries x g y) : f.Sealed x g y where
  toCarries := t
  token_refused ht v := run_write_token (t.token? ht) v
  attachment_refused hs records := run_mark_attach (t.attachment? hs) records

end Forest

/-- **What is written once stays written, over every run.**  Take any commands but the one that
clears the forest, some of which may fail.  Afterwards every node that was there has its kind and
identity, the token that it had, and the records that were attached to it, and whoever writes these
again is refused.  The same holds of every clone of it: when a clone is made, the node at each
position has the same of the four values as the node at this position of the source, and from then
on it keeps what the source had.

The values that are there are those that were written: a call that writes a token or attaches
records and succeeds leaves what it was given.  So every second call on the node is refused, however
much later it comes. -/
theorem Reached.written_once {loose : List NodeIndex} (h : Reached f loose)
    {steps : List (Nat × Command)} (stays : ∀ step ∈ steps, step.2 ≠ .clear) :
    (∀ x, f.contains x → f.Sealed x (Command.resume f steps) x) ∧
    (∀ source parent copy g,
      (Editing.clone source parent).run (Command.resume f steps) = .ok copy g →
      ∀ i x, ((Command.resume f steps).preorder source)[i]? = some x →
        (Command.resume f steps).Repeats (some x) g (some (copy + i)) ∧
        ∀ later : List (Nat × Command), (∀ step ∈ later, step.2 ≠ .clear) →
          (Command.resume f steps).Sealed (some x) (Command.resume g later) (some (copy + i)) ∧
          (f.contains (some x) →
            f.Sealed (some x) (Command.resume g later) (some (copy + i)))) ∧
    (∀ x v g, (Edit.write (.token v) x).run.run (Command.resume f steps) = .ok () g →
      g.token? x = some v ∧
      ∀ later : List (Nat × Command), (∀ step ∈ later, step.2 ≠ .clear) →
        g.Sealed x (Command.resume g later) x) ∧
    ∀ x attachment records g,
      (Edit.mark (.attach attachment records) x).run.run (Command.resume f steps) = .ok () g →
      g.attachment? x attachment = some records ∧
      ∀ later : List (Nat × Command), (∀ step ∈ later, step.2 ≠ .clear) →
        g.Sealed x (Command.resume g later) x := by
  have hf := h.tended.linked
  have kept {x : Link} (hx : f.contains x) := Command.carries_resume hf stays hx
  have hf' := Command.linked_resume hf steps
  refine ⟨fun x hx => (kept hx).sealed, ?clone, ?token, ?attach⟩
  case clone =>
    intro source parent copy g run i x hx
    obtain ⟨source, rfl, clonable, rfl, t⟩ := hf'.cloned_of_run_ok run
    have listed := List.mem_of_getElem? hx
    have copied := t.repeats listed
    have there := t.contains_copy listed
    rw [hf'.copyOf_of_getElem? hx] at copied there
    refine ⟨copied, fun later stays' => ?_⟩
    have onward := copied.carries.trans
      (Command.carries_resume (hf'.of_cloned t clonable) stays' there)
    exact ⟨onward.sealed, fun old => ((kept old).trans onward).sealed⟩
  case token =>
    intro x v g run
    have hg := hf'.congr ((Edit.written_of_run_ok rfl run).sameTrees hf'.intact)
    have written := Forest.token?_of_run hf'.intact run
    refine ⟨written, fun later stays' => ?_⟩
    exact (Command.carries_resume hg stays' (Forest.contains_of_token? written)).sealed
  case attach =>
    intro x attachment records g run
    have hg := hf'.congr ((Edit.written_of_run_ok rfl run).sameTrees hf'.intact)
    have attached := Forest.attachment?_of_run run
    refine ⟨attached, fun later stays' => ?_⟩
    have there := Forest.contains_of_attachment? hg.intact attached
    exact (Command.carries_resume hg stays' there).sealed

/-- A number with nothing in it. -/
def Command.numbered : List (Nat × Command) := [(1, .construct (.node .numberLiteral 0 0))]

/-- Criteria are attached to the number, a token is written to it, and a clone is made.  The clone
has both, and neither the number nor the clone is given others. -/
theorem written_once_numbered : ∃ f g h,
    (Edit.mark (.attach .criteria ⟨[.bool true]⟩) (some 0)).run.run
      (Command.perform Command.numbered).1 = .ok () f ∧
    (Edit.write (.token "1") (some 0)).run.run f = .ok () g ∧
    (Editing.clone (some 0) none).run g = .ok 1 h ∧
    h.token? (some 1) = some "1" ∧ h.attachment? (some 1) .criteria = some ⟨[.bool true]⟩ ∧
    ∀ k x, (k = g ∧ x = some 0) ∨ (k = h ∧ x = some 1) →
      (Edit.write (.token "2") x).run.run k = .error (.valueAlreadySet .numberLiteral .token) k ∧
      (Edit.mark (.attach .criteria .empty) x).run.run k =
        .error (.annotationsFrozen x .criteria) k := by
  let attach : Nat × Command := (0, .edit (.mark (.attach .criteria ⟨[.bool true]⟩) (some 0)))
  let write : Nat × Command := (0, .edit (.write (.token "1") (some 0)))
  have begun := reached_perform Command.numbered
  have once : ∀ step ∈ [attach], step.2 ≠ .clear := by simp [attach]
  have twice : ∀ step ∈ [attach, write], step.2 ≠ .clear := by simp [attach, write]
  obtain ⟨-, -, -, attaches⟩ := Reached.written_once begun (List.forall_mem_nil _)
  obtain ⟨-, -, writes, -⟩ := Reached.written_once begun once
  obtain ⟨-, clones, -, -⟩ := Reached.written_once begun twice
  have clonable : (Command.resume (Command.perform Command.numbered).1 [attach, write]).Clonable
      (some 0) none := ⟨by decide +kernel, .inl rfl, by decide +kernel⟩
  obtain ⟨h, run, -⟩ := (Command.linked_resume begun.tended.linked _).run_clone clonable
  obtain ⟨attached, later⟩ := attaches (some 0) .criteria ⟨[.bool true]⟩ _ rfl
  obtain ⟨token, later'⟩ := writes (some 0) "1" _ rfl
  have kept := later [write] (by simp [write])
  have kept' := later' [] (List.forall_mem_nil _)
  have copied := ((clones _ _ _ h run 0 0 (by decide +kernel)).2 [] (List.forall_mem_nil _)).1
  refine ⟨_, _, h, rfl, rfl, run, copied.token? token,
    copied.attachment? (kept.attachment? attached), ?_⟩
  rintro k x (⟨rfl, rfl⟩ | ⟨rfl, rfl⟩)
  · exact ⟨kept'.token_refused token "2", kept.attachment_refused attached .empty⟩
  · exact ⟨copied.token_refused token "2",
      copied.attachment_refused (kept.attachment? attached) .empty⟩

end SyntaxForest
