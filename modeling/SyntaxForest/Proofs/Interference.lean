import SyntaxForest.Proofs.Blindness
import SyntaxForest.Proofs.Unmarked
import SyntaxForest.Proofs.Values

/-!
# Marks and positions do not interfere

Two runs are compared: one of some commands, and one of the same commands without those that write
marks and ranges.  Step by step the sessions stay the same when they are made plain.  A command that
both runs perform agrees with itself, so it gets the same answer (`Session.respond_of_plain`); a
command that only the first performs leaves what can be seen (`Session.respond_of_mark`).

In the end everything is the same that does not report marks and ranges: the trees, the source
texts, and the records but for the fields with which they end.  `Session.blind_to_marks` says so for
every link, be it to a node or not.
-/

namespace SyntaxForest

namespace Session

/-! ## Runs and their answers -/

/-- Perform a command: its answer, and the session afterwards. -/
def respond (s : Session) (c : Command) : Except TreeError (Option NodeIndex) × Session :=
  match (perform c).run s with
  | .ok answer t => (.ok answer, t)
  | .error e t => (.error e, t)

/-- Perform commands one after the other: each with its answer, and the session in the end. -/
def answers : Session → List Command →
    List (Command × Except TreeError (Option NodeIndex)) × Session
  | s, [] => ([], s)
  | s, c :: rest =>
    let (answer, t) := s.respond c
    let (others, final) := t.answers rest
    ((c, answer) :: others, final)

/-- The session with every forest made plain. -/
def plain (s : Session) : Session := { s with forests := s.forests.map .plain }

/-- The session in which a command has left its forest, with the identity for the next
construction. -/
def afterwards (s : Session) (c : Command) (f : Forest) : Session :=
  { s.replace f with nextId := if c.isConstruction then s.nextId + 1 else s.nextId }

theorem replace_replace (s : Session) (f g : Forest) : (s.replace f).replace g = s.replace g := by
  simp only [replace, Array.setIfInBounds_setIfInBounds]

/-- An edit runs on the current forest. -/
theorem run_editing {α : Type} (edit : Editing α) (s : Session) : (editing edit).run s =
    match edit.run (s.forest s.current) with
    | .ok answer f => .ok answer (s.replace f)
    | .error e f => .error e (s.replace f) := by
  show (match edit.run (s.forest s.current) with
    | .ok answer f => EStateM.Result.ok answer ((s.replace Forest.empty).replace f)
    | .error e f => EStateM.Result.error e ((s.replace Forest.empty).replace f)) = _
  cases edit.run (s.forest s.current) <;> simp only [replace_replace]

/-- A command runs on the current forest, under the next identity. -/
theorem respond_eq (s : Session) (c : Command) : s.respond c =
    match (c.run s.nextId).run (s.forest s.current) with
    | .ok answer f => (.ok answer, s.afterwards c f)
    | .error e f => (.error e, s.afterwards c f) := by
  unfold respond perform afterwards
  simp only [EStateM.run_bind, EStateM.run_get]
  cases c.isConstruction <;>
    simp only [Bool.false_eq_true, if_true, if_false, EStateM.run_bind, EStateM.run_modify,
      run_editing, forest] <;>
    cases (c.run s.nextId).run (s.forests.getD s.current Forest.empty) <;> rfl

/-! ## Sessions of which the same is seen -/

theorem forest_plain (s : Session) (i : Nat) : s.plain.forest i = (s.forest i).plain := by
  simp only [forest, plain, Array.getD_eq_getD_getElem?, Array.getElem?_map]
  cases s.forests[i]? with
  | none => exact Forest.empty_plain.symm
  | some f => rfl

theorem plain_afterwards (s : Session) (c : Command) (f : Forest) :
    (s.afterwards c f).plain = s.plain.afterwards c f.plain := by
  simp only [afterwards, plain, replace, Array.map_setIfInBounds]

/-- The current forest may be put where it is. -/
theorem replace_forest (s : Session) : s.replace (s.forest s.current) = s := by
  have same : s.forests.setIfInBounds s.current (s.forest s.current) = s.forests := by
    apply Array.ext_getElem?
    intro j
    rw [Array.getElem?_setIfInBounds]
    split
    · next here =>
      subst here
      simp only [forest, Array.getD_eq_getD_getElem?]
      split
      · next inside => simp [inside]
      · next outside => simp at outside; simp [outside]
    · rfl
  rw [replace, same]

/-- **Whatever is not a mark gets the same answer in sessions of which the same is seen.** -/
theorem respond_of_plain {s t : Session} (same : s.plain = t.plain) {c : Command}
    (hc : c.isMark = false) :
    (s.respond c).1 = (t.respond c).1 ∧ (s.respond c).2.plain = (t.respond c).2.plain := by
  have current : s.current = t.current := (congrArg Session.current same :)
  have nextId : s.nextId = t.nextId := (congrArg Session.nextId same :)
  have forests : (s.forest s.current).plain = (t.forest t.current).plain := by
    rw [← forest_plain, same, forest_plain, current]
  have agree := Command.blind hc s.nextId forests
  rw [respond_eq, respond_eq, ← nextId]
  cases hs : (c.run s.nextId).run (s.forest s.current) <;>
    cases ht : (c.run s.nextId).run (t.forest t.current) <;>
    simp only [hs, ht, Editing.seen, EStateM.Result.ok.injEq, EStateM.Result.error.injEq,
      reduceCtorEq] at agree
  · obtain ⟨rfl, left⟩ := agree
    exact ⟨rfl, by rw [plain_afterwards, plain_afterwards, same, left]⟩
  · obtain ⟨rfl, left⟩ := agree
    exact ⟨rfl, by rw [plain_afterwards, plain_afterwards, same, left]⟩

/-- **A mark leaves what is seen of a session.** -/
theorem respond_of_mark (s : Session) {c : Command} (hc : c.isMark) :
    (s.respond c).2.plain = s.plain := by
  cases c with
  | construct _ | clone _ _ | clear => cases hc
  | edit e =>
    have stays (f : Forest) (same : f.plain = (s.forest s.current).plain) :
        (s.afterwards (.edit e) f).plain = s.plain := by
      rw [plain_afterwards, same, ← forest_plain]
      exact s.plain.replace_forest
    rw [respond_eq, Command.run, EStateM.run_bind]
    rcases Edit.run_cases_of_isMark hc (s.forest s.current) with ⟨err, refused⟩ | ⟨f, done, left⟩
    · rw [refused]
      exact stays _ rfl
    · rw [done]
      exact stays f left

/-- **Two runs side by side**, one with the marks and one without. -/
theorem answers_of_plain {s t : Session} (same : s.plain = t.plain) (commands : List Command) :
    (s.answers commands).1.filter (!·.1.isMark) =
        (t.answers (commands.filter (!·.isMark))).1 ∧
      (s.answers commands).2.plain = (t.answers (commands.filter (!·.isMark))).2.plain := by
  induction commands generalizing s t with
  | nil => exact ⟨rfl, same⟩
  | cons c rest ih =>
    cases hc : c.isMark with
    | true =>
      have left := (s.respond_of_mark hc).trans same
      obtain ⟨answers, final⟩ := ih left
      rw [List.filter_cons_of_neg (by simp [hc])]
      refine ⟨?_, final⟩
      rw [Session.answers, List.filter_cons_of_neg (by simp [hc])]
      exact answers
    | false =>
      obtain ⟨answer, left⟩ := respond_of_plain same hc
      obtain ⟨answers, final⟩ := ih left
      rw [List.filter_cons_of_pos (by simp [hc])]
      refine ⟨?_, final⟩
      rw [Session.answers, List.filter_cons_of_pos (by simp [hc]), Session.answers]
      dsimp only
      rw [answer, answers]

end Session

namespace Forest

/-- What can be seen of two forests without marks and ranges is the same, for every link and errors
included. -/
structure ShowsSame (f g : Forest) : Prop where
  kind? : ∀ x, f.kind? x = g.kind? x
  id? : ∀ x, f.id? x = g.id? x
  parent : ∀ x, f.parent x = g.parent x
  children : ∀ x, f.children x = g.children x
  preorder : ∀ x, f.preorder x = g.preorder x
  print : ∀ o x depth, f.print o x depth = g.print o x depth
  record : ∀ x, Json.unmarked <$> f.record x = Json.unmarked <$> g.record x

/-- Forests that are the same when made plain show the same. -/
theorem showsSame_of_plain {f g : Forest} (same : f.plain = g.plain) : f.ShowsSame g where
  kind? x := by rw [← f.kind?_plain, same, g.kind?_plain]
  id? x := by
    have ids (k : Forest) : k.plain.id? x = k.id? x := by
      rw [Forest.id?, record?_plain, Option.map_map, Forest.id?]
      rfl
    rw [← ids f, same, ids g]
  parent x := by rw [← f.parent_plain, same, g.parent_plain]
  children x := by rw [← f.children_plain, same, g.children_plain]
  preorder x := by rw [← f.preorder_plain, same, g.preorder_plain]
  print o x depth := by rw [← f.print_plain, same, g.print_plain]
  record x := by rw [← f.unmarked_record_plain, same, g.unmarked_record_plain]

end Forest

/-- **Annotations and positions never influence structure or source text.**  Leave out of some
commands all those that write a mark or a range.  Then every other command gets the same answer as
before, be it a node or an error, and in the end every forest shows the same: kinds, identities,
parents, children, orders, the text of every tree at every depth and with all options, and the
records of all trees once the annotator's fields are taken out of them. -/
theorem Session.blind_to_marks (count : Nat) (commands : List Command) :
    ((start count).answers commands).1.filter (!·.1.isMark) =
        ((start count).answers (commands.filter (!·.isMark))).1 ∧
      ∀ i, (((start count).answers commands).2.forest i).ShowsSame
        (((start count).answers (commands.filter (!·.isMark))).2.forest i) := by
  obtain ⟨answers, final⟩ := answers_of_plain (s := start count) rfl commands
  refine ⟨answers, fun i => Forest.showsSame_of_plain ?_⟩
  rw [← forest_plain, final, forest_plain]

end SyntaxForest
