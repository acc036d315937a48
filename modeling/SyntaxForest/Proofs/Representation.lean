import Mathlib.Logic.ExistsUnique
import SyntaxForest.Proofs.Values

/-!
# How a forest is stored

Fifteen pools are filled by every construction and by copying, and edits write into them through the
places that headers name.  Whatever the run, the places stay in order: `Forest.Represented` says
that every place of a pool belongs to exactly one node, that lists hold nodes of the right kinds and
nothing else, and that no loop repeats a label.

From this follow the two facts that callers live by.  What a node has to hold by its kind is found
when it is asked for; and an edit of one node reaches the contents of another only to take out the
children that it moves (`Edit.Confined`).

The parts about places and lists are those of `Forest.Intact` and `Forest.Linked`.  The labels are a
fact about values, and hold because a label is written only where it is not there yet.
-/

namespace SyntaxForest

variable {f g : Forest}

/-! ## Labels -/

namespace Contents

/-- The labels of a loop; other contents have none. -/
def labels (c : Contents) : List String := (c.loop?.map (·.labels)).getD []

/-- Labels do not depend on links. -/
theorem labels_scalars (c : Contents) : c.scalars.labels = c.labels := by cases c <;> rfl

/-- A new loop has no labels. -/
theorem labels_of_construction {new : Construction} {c : Contents}
    (h : new.contents? = some c) : c.labels = [] := by
  cases new with
  | node kind _ _ => cases kind <;> cases h <;> rfl
  | _ => cases h <;> rfl

end Contents

namespace Scalar

/-- Writing repeats no label of a loop. -/
theorem nodup_writeLoop (s : Scalar) {loop : Contents.Loop} (h : loop.labels.Nodup) :
    (s.writeLoop loop).labels.Nodup := by
  cases s with
  | loopLabel label =>
    rw [writeLoop]
    split
    · exact h
    · next new => exact List.concat_eq_append ▸ h.concat new
  | _ => exact h

/-- Writing repeats no label. -/
theorem nodup_labels_write (s : Scalar) {c : Contents} (h : c.labels.Nodup) :
    (s.write c).labels.Nodup := by
  cases c with
  | forInLoop c => cases s <;> first | exact h | exact nodup_writeLoop _ h
  | doLoop c => cases s <;> first | exact h | exact nodup_writeLoop _ h
  | whileLoop c => exact nodup_writeLoop s h
  | _ => exact List.nodup_nil

end Scalar

theorem Forest.labels_of_contents? {x : Link} {c : Contents} (hc : f.contents? x = some c) :
    f.labels x = c.labels := by
  rw [Forest.labels, hc, Option.bind_some, Contents.labels]
  cases c.loop? <;> rfl

/-- No loop repeats a label. -/
theorem Reached.nodup_labels {loose : List NodeIndex} (h : Reached f loose) (x : Link) :
    (f.labels x).Nodup := by
  cases hc : f.contents? x with
  | none =>
    rw [Forest.labels, hc]
    exact List.nodup_nil
  | some c =>
    rw [Forest.labels_of_contents? hc]
    refine h.forall_contents (P := fun c => c.labels.Nodup) ?_ ?_ (fun s _ hc => ?_) hc
    · intro c c' same hc
      rwa [← c'.labels_scalars, same, c.labels_scalars]
    · intro new c hnew
      exact Contents.labels_of_construction hnew ▸ List.nodup_nil
    · exact s.nodup_labels_write hc

/-! ## Places -/

/-- The pools of a forest and what its nodes keep in them. -/
structure Forest.Represented (f : Forest) : Prop where
  size_records : f.records.size = f.headers.size
  entry_of_bare : ∀ {x h}, f.header? x = some h → h.kind.isBare → h.entry = none
  entry_of_filled : ∀ {x h}, f.header? x = some h → h.kind.isBare = false →
    ∃ i, h.entry = some i ∧ i < f.pools.size h.kind
  entry_inj : ∀ {x y h h' i}, f.header? x = some h → f.header? y = some h' →
    h.kind = h'.kind → h.entry = some i → h'.entry = some i → x = y
  /-- Every place of a pool belongs to one node. -/
  owner : ∀ {k i}, i < f.pools.size k →
    ∃! x, ∃ h, f.header? x = some h ∧ h.kind = k ∧ h.entry = some i
  listed : ∀ x slot, none ∉ f.list x slot
  properties : ∀ {x a}, f.kind? x = some .objectLiteral → a ∈ f.list x .elements →
    f.kind? a = some .objectProperty
  handlers : ∀ {x a}, a ∈ f.list x .catchClauses → f.kind? a = some .catchClause
  labels : ∀ x, (f.labels x).Nodup

/-- What stands in a list is a node, of the kind that the list demands. -/
theorem Forest.Linked.kind?_of_mem_list (hf : f.Linked) {x a : Link} {slot : ListSlot}
    (ha : a ∈ f.list x slot) :
    ∃ k kind, f.kind? x = some k ∧ f.kind? a = some kind ∧
      ∀ demand ∈ slot.entryKind? k, kind = demand := by
  cases hc : f.contents? x with
  | none => simp [Forest.list, hc] at ha
  | some c =>
    have hk := Forest.kind?_of_contents? hc
    obtain ⟨kind, hkind, demands⟩ := hf.entries hk ha
    exact ⟨c.kind, kind, hk, hkind, demands⟩

/-- **Linked forests whose loops repeat no label are stored in order.** -/
theorem Forest.Linked.represented_of_labels (hf : f.Linked) (labels : ∀ x, (f.labels x).Nodup) :
    f.Represented where
  size_records := hf.intact.size_records
  entry_of_bare hx bare := (hf.intact.entry_eq_none_iff hx).mpr bare
  entry_of_filled := by
    intro x h hx filled
    cases hentry : h.entry with
    | none =>
      rw [(hf.intact.entry_eq_none_iff hx).mp hentry] at filled
      cases filled
    | some i => exact ⟨i, rfl, hf.intact.entry_lt hx hentry⟩
  entry_inj := hf.intact.entry_inj
  owner := by
    intro k i hi
    obtain ⟨x, h, hx, hk, hentry⟩ := hf.intact.owned hi
    refine ⟨x, ⟨h, hx, hk, hentry⟩, ?_⟩
    rintro y ⟨h', hy, hk', hentry'⟩
    exact hf.intact.entry_inj hy hx (hk'.trans hk.symm) hentry' hentry
  listed := by
    intro x slot ha
    obtain ⟨_, kind, -, hkind, -⟩ := hf.kind?_of_mem_list ha
    cases hkind
  properties := by
    intro x a hx ha
    obtain ⟨k, kind, hk, hkind, demands⟩ := hf.kind?_of_mem_list ha
    cases hx.symm.trans hk
    rw [hkind, demands _ rfl]
  handlers := by
    intro x a ha
    obtain ⟨k, kind, -, hkind, demands⟩ := hf.kind?_of_mem_list ha
    rw [hkind, demands _ rfl]
  labels := labels

/-! ## What an edit reaches -/

/-- An edit has changed the contents of no node but its own, except for the children that it has
taken from where they stood. -/
structure Edit.Confined (f g : Forest) (e : Edit) : Prop where
  header? : ∀ {y}, y ≠ e.node → g.header? y = f.header? y
  entries : ∀ {y h i}, y ≠ e.node → f.header? y = some h → h.entry = some i →
    g.pools.get? h.kind i = (f.pools.get? h.kind i).map (·.without e.moved)
  /-- Whoever loses a child was the parent of a child that was passed. -/
  moved : ∀ {y h i}, y ≠ e.node → f.header? y = some h → h.entry = some i →
    g.pools.get? h.kind i ≠ f.pools.get? h.kind i → ∃ x ∈ e.moved, f.parent (some x) = y

/-- Another node than that of the edit only loses what the edit moves. -/
theorem Edit.contents?_elsewhere (hf : f.Linked) {e : Edit} (run : e.run.run f = .ok () g)
    {y : Link} (hy : y ≠ e.node) :
    g.contents? y = (f.contents? y).map (·.without e.moved) := by
  cases hpart : e.part? with
  | some part =>
    rw [(transfer_of_run_ok hf hpart run).2.contents]
    simp only [hy, if_false]
  | none =>
    have nothing : e.moved = [] := by cases e <;> first | rfl | cases hpart
    have kept (c : Contents) : c.without [] = c := Contents.without_eq_self (by simp)
    simp only [nothing, kept, Option.map_id']
    exact ((written_of_run_ok hpart run).eq_elsewhere hf.intact hy).2.1

/-- **No edit of one node changes the contents of another, except that it moves children.** -/
theorem Edit.confined_of_run_ok (hf : f.Linked) {e : Edit} (run : e.run.run f = .ok () g) :
    e.Confined f g := by
  have header {y : Link} (hy : y ≠ e.node) : g.header? y = f.header? y := by
    rw [(alters_of_run_ok hf run).header?]
    simp only [hy, if_false, Option.map_id']
  have entries {y : Link} {h : Header} {i : Nat} (hy : y ≠ e.node) (hh : f.header? y = some h)
      (hi : h.entry = some i) :
      g.pools.get? h.kind i = (f.pools.get? h.kind i).map (·.without e.moved) := by
    rw [← Forest.contents?_of_entry ((header hy).trans hh) hi, ← Forest.contents?_of_entry hh hi]
    exact contents?_elsewhere hf run hy
  refine ⟨header, entries, fun {y h i} hy hh hi changed => ?_⟩
  rw [entries hy hh hi, ← Forest.contents?_of_entry hh hi] at changed
  cases hc : f.contents? y with
  | none => simp [hc] at changed
  | some c =>
    by_contra apart
    push Not at apart
    refine changed ?_
    rw [hc, Option.map_some, Contents.without_eq_self]
    intro x hx stored
    exact apart x hx (hf.parent_of_mem (Forest.mem_children_iff.mpr ⟨c, hc, stored⟩))

/-- **The representation invariant.**  In every forest that was reached, records and headers go
together, every node of a kind with contents has a place of its own in the pool of its kind and
every place has its node, lists hold nodes of the kinds that they demand, and no loop repeats a
label.  Therefore the contents of a node are found by everyone who asks for a kind that the node
has, an edit that fails changes nothing, and an edit of one node changes the contents of another
only by moving children. -/
theorem Reached.represented {loose : List NodeIndex} (h : Reached f loose) :
    f.Represented ∧
    (∀ x k expected, f.kind? x = some k → k.isBare = false → expected.admits k →
      ∃ c, f.contentsOf expected x = .ok c ∧ c.kind = k) ∧
    ∀ e : Edit, (∀ err g, e.run.run f = .error err g → g = f) ∧
      ∀ g, e.run.run f = .ok () g → e.Confined f g := by
  have hf := h.tended.linked
  refine ⟨hf.represented_of_labels h.nodup_labels, ?_, fun e => ⟨?_, fun g run => ?_⟩⟩
  · intro x k expected hx filled admitted
    obtain ⟨c, hc, rfl⟩ := hf.intact.exists_contents? hx filled
    exact ⟨c, Forest.contentsOf_eq_ok_iff.mpr ⟨hc, admitted⟩, rfl⟩
  · intro err g failed
    have refused : ((Command.edit e).run 0).run f = .error err g := by
      rw [Command.run, EStateM.run_bind, failed]
    exact Command.eq_of_run_error hf refused
  · exact Edit.confined_of_run_ok hf run

/-- The second of two loops has the second place of their pool, and takes the condition of the
first. -/
theorem represented_nested :
    (∃! x, ∃ h, (Command.perform Command.nested).1.header? x = some h ∧ h.kind = .whileLoop ∧
      h.entry = some 1) ∧
    ∃ g, (Edit.setChild .condition (some 4) (some 2)).run.run (Command.perform Command.nested).1 =
        .ok () g ∧
      (Edit.setChild .condition (some 4) (some 2)).Confined (Command.perform Command.nested).1 g ∧
      g.pools.get? .whileLoop 0 =
        ((Command.perform Command.nested).1.pools.get? .whileLoop 0).map (·.without [2]) := by
  have h := reached_perform Command.nested
  have stored := Reached.represented h
  refine ⟨stored.1.owner (by decide +kernel), ?_⟩
  have legal : (Edit.setChild .condition (some 4) (some 2)).Legal
      (Command.perform Command.nested).1 (.child .condition) :=
    (Edit.demands_eq_ok_iff h.tended.linked.intact rfl).mp (by decide +kernel)
  obtain ⟨g, run, -⟩ := Edit.exists_transfer h.tended.linked rfl legal
  have confined := (stored.2.2 (.setChild .condition (some 4) (some 2))).2 g run
  have first : (Command.perform Command.nested).1.header? (some 1) =
      some ⟨.whileLoop, 0, 0, some 0⟩ := by decide +kernel
  exact ⟨g, run, confined, confined.entries (by decide) first rfl⟩

end SyntaxForest
