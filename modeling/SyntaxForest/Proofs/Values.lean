import SyntaxForest.Proofs.Runs

/-!
# What becomes of values

Besides its children a node has values: what its contents hold beside the links, its range, and the
marks in its record.  This module says once what an edit does to them, whichever edit it is.  An
edit of a part moves links and writes no value; every other edit writes one value of one node.
`Edit.onHeader`, `Edit.onContents` and `Edit.onRecord` are what an edit makes of the values of its
node, and `Edit.Alters` says that nothing else changes.

Values come from constructions, from writing and from nowhere else, for a clone only repeats them.
`Reached.forall_contents` turns this into an induction principle: what new contents have, and what
writing keeps, all contents of a forest that was reached have.
-/

namespace SyntaxForest

variable {f g : Forest}

/-- The identity of a node. -/
def Forest.id? (f : Forest) (x : Link) : Option Nat := (f.record? x).map (·.id)

namespace Edit

/-- The header of its node after an edit of a range; other edits leave it. -/
def onHeader : Edit → Header → Header
  | .setRange _ pos len, h => { h with pos, len }
  | _, h => h

/-- The contents of its node after an edit of a value; other edits leave their values. -/
def onContents : Edit → Contents → Contents
  | .write s _, c => s.write c
  | _, c => c

/-- The record of its node after a mark; other edits leave it, but for the parent. -/
def onRecord : Edit → NodeRecord → NodeRecord
  | .mark m _, r => m.write r
  | _, r => r

/-- An edit has changed values at its node and nowhere else. -/
structure Alters (f g : Forest) (e : Edit) : Prop where
  header? : ∀ y, g.header? y = (f.header? y).map fun h => if y = e.node then e.onHeader h else h
  scalars : ∀ y, (g.contents? y).map (·.scalars) =
    (f.contents? y).map fun c => (if y = e.node then e.onContents c else c).scalars
  record? : ∀ y, (g.record? y).map (·.withParent none) =
    (f.record? y).map fun r => (if y = e.node then e.onRecord r else r).withParent none

variable {e : Edit}

/-- An edit of a part leaves what contents hold beside the links. -/
theorem Transfer.scalars {part : Part} (t : e.Transfer f g part) (y : Link) :
    (g.contents? y).map (·.scalars) = (f.contents? y).map (·.scalars) := by
  rw [t.contents, Option.map_map]
  refine Option.map_congr fun c _ => ?_
  rw [Function.comp_apply]
  split
  · rw [Contents.scalars_fill, Contents.scalars_without]
  · exact Contents.scalars_without ..

/-- An edit of a part leaves records but for the parents. -/
theorem Transfer.withParent_record {part : Part} (t : e.Transfer f g part) (y : Link) :
    (g.record? y).map (·.withParent none) = (f.record? y).map (·.withParent none) := by
  rw [t.record, Option.map_map]
  rfl

/-- An edit of a part leaves all values. -/
theorem Transfer.alters {part : Part} (hpart : e.part? = some part) (t : e.Transfer f g part) :
    e.Alters f g := by
  have header (h : Header) : e.onHeader h = h := by cases e <;> first | rfl | cases hpart
  have contents (c : Contents) : e.onContents c = c := by cases e <;> first | rfl | cases hpart
  have record (r : NodeRecord) : e.onRecord r = r := by cases e <;> first | rfl | cases hpart
  refine ⟨fun y => ?_, fun y => ?_, fun y => ?_⟩
  · simp only [header, ite_self, Option.map_id', t.header?]
  · simp only [contents, ite_self, t.scalars]
  · simp only [record, ite_self, t.withParent_record]

namespace Written

/-- An edit of a value changes its node and no other. -/
theorem eq_elsewhere (hf : f.Intact) (w : Written f e g) {y : Link} (hy : y ≠ e.node) :
    g.header? y = f.header? y ∧ g.contents? y = f.contents? y ∧ g.record? y = f.record? y := by
  cases w with
  | @write s node c hc _ =>
    refine ⟨Forest.header?_setContents .., ?_, Forest.record?_setContents ..⟩
    exact (Forest.contents?_setContents hf hc (s.kind_write c) y).trans (if_neg hy)
  | mark =>
    refine ⟨Forest.header?_modifyRecord .., Forest.contents?_modifyRecord .., ?_⟩
    rw [Forest.record?_modifyRecord, if_neg fun same => hy same.symm]
  | setRange =>
    refine ⟨?_, Forest.contents?_setRange .., Forest.record?_setRange ..⟩
    rw [Forest.header?_setRange, if_neg fun same => hy same.symm]

/-- An edit of a value changes at its node what it writes. -/
theorem eq_node (hf : f.Intact) (w : Written f e g) :
    g.header? e.node = (f.header? e.node).map e.onHeader ∧
      g.contents? e.node = (f.contents? e.node).map e.onContents ∧
      g.record? e.node = (f.record? e.node).map e.onRecord := by
  cases w with
  | @write s node c hc _ =>
    refine ⟨?_, ?_, ?_⟩
    · exact (Forest.header?_setContents ..).trans Option.map_id'.symm
    · show (f.setContents node (s.write c)).contents? node = (f.contents? node).map s.write
      rw [Forest.contents?_setContents hf hc (s.kind_write c), if_pos rfl, hc]
      rfl
    · exact (Forest.record?_setContents ..).trans Option.map_id'.symm
  | mark =>
    refine ⟨?_, ?_, ?_⟩
    · exact (Forest.header?_modifyRecord ..).trans Option.map_id'.symm
    · exact (Forest.contents?_modifyRecord ..).trans Option.map_id'.symm
    · exact (Forest.record?_modifyRecord ..).trans (if_pos rfl)
  | setRange =>
    refine ⟨?_, ?_, ?_⟩
    · exact (Forest.header?_setRange ..).trans (if_pos rfl)
    · exact (Forest.contents?_setRange ..).trans Option.map_id'.symm
    · exact (Forest.record?_setRange ..).trans Option.map_id'.symm

theorem alters (hf : f.Intact) (w : Written f e g) : e.Alters f g := by
  obtain ⟨header, contents, record⟩ := w.eq_node hf
  refine ⟨fun y => ?_, fun y => ?_, fun y => ?_⟩ <;> by_cases hy : y = e.node
  · subst hy
    simpa using header
  · simpa [hy] using (w.eq_elsewhere hf hy).1
  · subst hy
    simp [contents, Function.comp_def]
  · simp [hy, (w.eq_elsewhere hf hy).2.1]
  · subst hy
    simp [record, Function.comp_def]
  · simp [hy, (w.eq_elsewhere hf hy).2.2]

end Written

/-- **An edit changes values at its node and nowhere else.** -/
theorem alters_of_run_ok (hf : f.Linked) (run : e.run.run f = .ok () g) : e.Alters f g := by
  cases hpart : e.part? with
  | some part => exact (transfer_of_run_ok hf hpart run).2.alters hpart
  | none => exact (written_of_run_ok hpart run).alters hf.intact

end Edit

theorem Command.run_of_edit {e : Edit} {id : Nat} {answer : Option NodeIndex}
    (run : ((Command.edit e).run id).run f = .ok answer g) : e.run.run f = .ok () g := by
  rw [Command.run, EStateM.run_bind] at run
  cases h : e.run.run f with
  | error => simp [h] at run
  | ok _ g' =>
    simp only [h] at run
    cases run
    rfl

/-- **Where values come from**: from a construction, or from contents that were there before, and
these were at most written. -/
theorem Command.origin_of_contents? (hf : f.Linked) {c : Command} {id : Nat}
    {answer : Option NodeIndex} (run : (c.run id).run f = .ok answer g) {x : Link}
    {contents : Contents} (hx : g.contents? x = some contents) :
    (∃ new, c = .construct new ∧ new.contents? = some contents) ∨
      ∃ y before, f.contents? y = some before ∧ (contents.scalars = before.scalars ∨
        ∃ s, c = .edit (.write s y) ∧ contents.scalars = (s.write before).scalars) := by
  cases c with
  | construct new =>
    cases Command.effect_of_run_ok hf run
    rw [Forest.contents?_construct hf] at hx
    split at hx
    · exact Or.inl ⟨new, rfl, hx⟩
    · exact Or.inr ⟨x, contents, hx, Or.inl rfl⟩
  | edit e =>
    have shown := (Edit.alters_of_run_ok hf (Command.run_of_edit run)).scalars x
    rw [hx, Option.map_some, eq_comm, Option.map_eq_some_iff] at shown
    obtain ⟨before, hbefore, values⟩ := shown
    refine Or.inr ⟨x, before, hbefore, ?_⟩
    split at values
    · next here =>
      subst here
      cases e with
      | write s _ => exact Or.inr ⟨s, rfl, values.symm⟩
      | _ => exact Or.inl values.symm
    · exact Or.inl values.symm
  | clone _ _ =>
    cases Command.effect_of_run_ok hf run with
    | clone _ t =>
      cases x with
      | none => cases hx
      | some x =>
        rcases t.exists_of_contains hf (Forest.contains_of_contents? hx) with old | ⟨y, hy, rfl⟩
        · exact Or.inr ⟨some x, contents, (t.contents?_old old).symm.trans hx, Or.inl rfl⟩
        · rw [t.contents? hy, Option.map_eq_some_iff] at hx
          obtain ⟨before, hbefore, rfl⟩ := hx
          exact Or.inr ⟨some y, before, hbefore, Or.inl (Contents.scalars_rewire ..)⟩
  | clear =>
    cases Command.effect_of_run_ok hf run
    cases x <;> cases hx

/-- **What new contents have and writing keeps, all contents have.** -/
theorem Reached.forall_contents {P : Contents → Prop}
    (same : ∀ {c c' : Contents}, c'.scalars = c.scalars → P c → P c')
    (new : ∀ {c : Construction} {contents : Contents}, c.contents? = some contents → P contents)
    (written : ∀ (s : Scalar) {c : Contents}, P c → P (s.write c))
    {loose : List NodeIndex} (h : Reached f loose) :
    ∀ {x c}, f.contents? x = some c → P c := by
  induction h with
  | start =>
    intro x c hc
    cases x <;> cases hc
  | failed id c before run ih => exact Command.eq_of_run_error before.tended.linked run ▸ ih
  | done id c before run ih =>
    intro x contents hx
    rcases Command.origin_of_contents? before.tended.linked run hx with
      ⟨_, -, hnew⟩ | ⟨y, c, hc, values | ⟨s, -, values⟩⟩
    · exact new hnew
    · exact same values (ih hc)
    · exact same values (written s (ih hc))

end SyntaxForest
