import SyntaxForest.Proofs.Plain
import SyntaxForest.Proofs.Runs

/-!
# Commands do not look at marks and positions

Two computations *agree* if they do the same in forests that are the same when they are made plain:
they answer the same, errors included, and leave forests that are again the same when made plain.
A computation is *blind* if it agrees with itself.  Agreement is kept by everything from which
commands are put together, so that it is proved along their programs, one rule for each construct.

* `Command.blind` — every command but the marks is blind;
* `Edit.run_cases_of_isMark` — a mark leaves what can be seen of a forest, be it written or refused.

Nothing is asked of the forests, whose parts may be lost.  What is load-bearing is that of the
headers that a program asks for it looks at the kind alone, and that copying repeats what it does
not look at.
-/

namespace SyntaxForest

namespace Editing

variable {α β : Type}

/-- What is seen of a result without marks and ranges. -/
def seen : EStateM.Result TreeError Forest α → EStateM.Result TreeError Forest α
  | .ok answer f => .ok answer f.plain
  | .error e f => .error e f.plain

/-- The computations do the same, as far as can be seen, in forests of which the same is seen. -/
def Agree (m m' : Editing α) : Prop :=
  ∀ ⦃f g : Forest⦄, f.plain = g.plain → seen (m.run f) = seen (m'.run g)

/-- The computation looks at no mark and no range. -/
abbrev Blind (m : Editing α) : Prop := Agree m m

/-! ## The constructs of programs -/

theorem agree_pure (a : α) : Blind (pure a : Editing α) := by
  intro f g same
  simp only [EStateM.run_pure, seen, same]

theorem agree_throw (e : TreeError) : Blind (throw e : Editing α) := by
  intro f g same
  show seen (.error e f) = seen (.error e g)
  simp only [seen, same]

theorem Agree.bind {m m' : Editing α} {next next' : α → Editing β} (h : Agree m m')
    (hnext : ∀ a, Agree (next a) (next' a)) : Agree (m >>= next) (m' >>= next') := by
  intro f g same
  have first := h same
  rw [EStateM.run_bind, EStateM.run_bind]
  cases hm : m.run f <;> cases hm' : m'.run g <;>
    simp only [hm, hm', seen, EStateM.Result.ok.injEq, EStateM.Result.error.injEq,
      reduceCtorEq] at first
  · obtain ⟨rfl, same⟩ := first
    exact hnext _ same
  · obtain ⟨rfl, same⟩ := first
    simp only [seen, same]

theorem Agree.ite {p : Prop} [Decidable p] {m m' n n' : Editing α} (h : Agree m m')
    (h' : Agree n n') : Agree (if p then m else n) (if p then m' else n') := by
  split
  · exact h
  · exact h'

/-- To look at the forest is to look at what is the same in both. -/
theorem agree_get_bind {next next' : Forest → Editing β}
    (h : ∀ f g : Forest, f.plain = g.plain → Agree (next f) (next' g)) :
    Agree (get >>= next) (get >>= next') := by
  intro f g same
  rw [EStateM.run_bind, EStateM.run_bind, EStateM.run_get, EStateM.run_get]
  exact h f g same same

theorem agree_modify {update update' : Forest → Forest}
    (h : ∀ f g : Forest, f.plain = g.plain → (update f).plain = (update' g).plain) :
    Agree (modify update : Editing Unit) (modify update') := by
  intro f g same
  rw [EStateM.run_modify, EStateM.run_modify, seen, seen, h f g same]

theorem agree_ask {question : Forest → Except TreeError α}
    (h : ∀ f, question f.plain = question f) : Blind (ask question) := by
  intro f g same
  rw [run_ask, run_ask, ← h f, same, h g]
  cases question g <;> simp only [seen, same]

/-- Of a header that is asked for, the range is not known. -/
theorem agree_header_bind {question : Forest → Except TreeError Header}
    {next next' : Header → Editing β} (h : ∀ f, question f.plain = Header.plain <$> question f)
    (hnext : ∀ h h' : Header, h.plain = h'.plain → Agree (next h) (next' h')) :
    Agree (ask question >>= next) (ask question >>= next') := by
  intro f g same
  have answers : Header.plain <$> question f = Header.plain <$> question g := by
    rw [← h f, same, h g]
  rw [EStateM.run_bind, EStateM.run_bind, run_ask, run_ask]
  cases hf : question f <;> cases hg : question g <;>
    simp only [hf, hg, Functor.map, Except.map, Except.ok.injEq, Except.error.injEq,
      reduceCtorEq] at answers
  · simp only [seen, answers, same]
  · exact hnext _ _ answers same

theorem agree_forM {act : α → Editing PUnit} (h : ∀ a, Blind (act a)) (as : List α) :
    Blind (as.forM act) := by
  induction as with
  | nil => exact agree_pure _
  | cons a as ih => exact (h a).bind fun _ => ih

theorem agree_foldlM {act : β → α → Editing β} (h : ∀ b a, Blind (act b a)) (as : List α)
    (b : β) : Blind (as.foldlM act b) := by
  induction as generalizing b with
  | nil => exact agree_pure _
  | cons a as ih => exact (h b a).bind ih

/-- An update that can be made plain before or after is blind. -/
theorem agree_update {update : Forest → Forest} (h : ∀ f, (update f).plain = update f.plain) :
    Blind (modify update : Editing Unit) :=
  agree_modify fun f g same => by rw [h, same, h]

/-! ## Edits -/

theorem blind_release (child : Link) : Blind (release child) := by
  have cut : Blind (modify (·.setParent child none) : Editing Unit) :=
    agree_update fun f => f.plain_setParent ..
  refine agree_get_bind fun f g same => ?_
  rw [← f.parent_plain, same, g.parent_plain]
  cases g.parent child with
  | none => exact agree_pure _
  | some owner =>
    refine agree_header_bind (fun f => f.header_plain _) fun h h' headers => ?_
    refine agree_get_bind fun f g same => ?_
    have kind : h.kind = h'.kind := (congrArg Header.kind headers :)
    rw [← f.contents?_plain, same, g.contents?_plain, kind]
    cases g.contents? (some owner) with
    | none => exact .ite ((agree_throw _).bind fun _ => cut) cut
    | some c => exact .bind (agree_update fun f => f.plain_setContents ..) fun _ => cut

end Editing

namespace Edit

open Editing

/-- What an edit of a part does once its demands are met is blind. -/
theorem blind_perform {e : Edit} {part : Part} (hpart : e.part? = some part) :
    Blind e.perform := by
  have write (node : Link) (c : Contents) :
      Blind (modify (·.setContents node c) : Editing Unit) :=
    agree_update fun f => f.plain_setContents ..
  have adopt (child node : Link) : Blind (modify (·.setParent child node) : Editing Unit) :=
    agree_update fun f => f.plain_setParent ..
  have lose (old node : Link) : Blind (modify (·.detach old node) : Editing Unit) :=
    agree_update fun f => f.plain_detach ..
  have contents (expected : Expectation) (node : Link) :
      Blind (ask (·.contentsOf expected node)) :=
    agree_ask fun f => f.contentsOf_plain ..
  cases e with
  | setChild slot node child =>
    refine (blind_release child).bind fun _ => (contents slot.owner node).bind fun c => ?_
    refine (write _ _).bind fun _ => ?_
    exact .ite ((lose _ _).bind fun _ => adopt _ _) (adopt _ _)
  | setList slot node children =>
    refine (agree_forM blind_release children).bind fun _ => ?_
    refine (contents slot.owner node).bind fun c => (write _ _).bind fun _ => ?_
    refine Agree.bind (agree_forM (fun entry => .ite (lose _ _) (agree_pure _)) _) fun _ => ?_
    exact agree_forM (fun child => adopt _ _) _
  | append slot node child =>
    refine (blind_release child).bind fun _ => (contents slot.owner node).bind fun c => ?_
    exact (write _ _).bind fun _ => adopt _ _
  | write _ _ | mark _ _ | setRange _ _ _ => cases hpart

/-- Whether an edit only writes a mark or a range. -/
def isMark : Edit → Bool
  | .mark _ _ | .setRange _ _ _ => true
  | _ => false

/-- **A mark leaves what can be seen of a forest**, whether it is written or refused. -/
theorem run_cases_of_isMark {e : Edit} (he : e.isMark) (f : Forest) :
    (∃ err, e.run.run f = .error err f) ∨ ∃ g, e.run.run f = .ok () g ∧ g.plain = f.plain := by
  have value : e.part? = none := by cases e <;> first | rfl | cases he
  refine (run_cases_of_value value).imp_right fun ⟨g, done, w⟩ => ⟨g, done, ?_⟩
  cases w with
  | write => cases he
  | mark => exact f.plain_mark ..
  | setRange => exact f.plain_setRange ..

/-- **Every edit but a mark is blind.** -/
theorem blind_run {e : Edit} (he : e.isMark = false) : Blind e.run := by
  cases hpart : e.part? with
  | some part =>
    rw [run_eq]
    exact (agree_ask fun f => f.demands_plain e).bind fun _ => blind_perform hpart
  | none =>
    cases e with
    | setChild _ _ _ | setList _ _ _ | append _ _ _ => cases hpart
    | mark _ _ | setRange _ _ _ => cases he
    | write s node =>
      refine (agree_ask fun f => f.contentsOf_plain ..).bind fun c => ?_
      have write : Blind (modify (·.setContents node (s.write c)) : Editing Unit) :=
        agree_update fun f => f.plain_setContents ..
      exact .ite ((agree_throw _).bind fun _ => write) write

end Edit

/-! ## Cloning -/

namespace Editing

/-- Copying contents looks at the kind of a header and at what it names. -/
theorem agree_copyContents (x : NodeIndex) {h h' : Header} (same : h.plain = h'.plain) :
    Agree (copyContents x h) (copyContents x h') := by
  have kind : h.kind = h'.kind := (congrArg Header.kind same :)
  have held (f : Forest) : f.held? h = f.held? h' := (congrArg f.held? same :)
  unfold copyContents
  rw [kind]
  refine .ite (agree_pure _) (agree_get_bind fun f g agree => ?_)
  rw [held, ← f.held?_plain, agree, g.held?_plain]
  cases g.held? h' with
  | none => exact agree_throw _
  | some c =>
    refine agree_get_bind fun f g agree => ?_
    have entry : f.nextEntry c = g.nextEntry c := (congrArg (·.nextEntry c) agree :)
    rw [entry]
    exact .bind (agree_update fun f => rfl) fun _ => agree_pure _

/-- **Copying a node repeats the range and the marks of its source, and looks at neither.** -/
theorem blind_copyNode (x : NodeIndex) (parent : Link) : Blind (copyNode x parent) := by
  refine agree_header_bind (fun f => f.header_plain _) fun h h' headers => ?_
  refine (agree_copyContents x headers).bind fun entry => agree_get_bind fun f g agree => ?_
  have records : (f.record? x).map NodeRecord.plain = (g.record? x).map NodeRecord.plain := by
    rw [← f.record?_plain, agree, g.record?_plain]
  cases hf : f.record? x <;> cases hg : g.record? x <;>
    simp only [hf, hg, Option.map_none, Option.map_some, reduceCtorEq, Option.some.injEq] at records
  · exact agree_throw _
  · rename_i r r'
    refine agree_get_bind fun f g agree => ?_
    rw [← f.size_plain, agree, g.size_plain]
    refine Agree.bind (agree_modify fun f g agree => ?_) fun _ => agree_pure _
    have header : Header.plain { h with entry } = Header.plain { h' with entry } :=
      (congrArg (fun k : Header => { k with entry }) headers :)
    have record : NodeRecord.plain { r with parent } = NodeRecord.plain { r' with parent } :=
      (congrArg (fun k : NodeRecord => { k with parent }) records :)
    rw [f.plain_append, g.plain_append, agree, header, record,
      show f.pools = g.pools from (congrArg Forest.pools agree :)]

/-- Copying a tree looks at its children, level by level. -/
theorem blind_copyTree (room : Nat) (parent : Link) (copies : Copies) (x : NodeIndex) :
    Blind (copyTree room parent copies x) := by
  induction room generalizing parent copies x with
  | zero => exact (blind_copyNode x parent).bind fun _ => agree_pure _
  | succ room ih =>
    refine (blind_copyNode x parent).bind fun copy => agree_get_bind fun f g agree => ?_
    rw [← f.below_plain, agree, g.below_plain]
    exact agree_foldlM (fun copies y => ih copy copies y) _ _

end Editing

namespace Forest

theorem plain_relink (copies : Copies) (f : Forest) (x : NodeIndex) :
    (f.relink copies x).plain = f.plain.relink copies x := by
  rw [relink, relink, contents?_plain]
  cases f.contents? x with
  | none => rfl
  | some c => exact f.plain_setContents ..

theorem plain_relinkFrom (f : Forest) (first : Nat) (copies : Copies) :
    (f.relinkFrom first copies).plain = f.plain.relinkFrom first copies := by
  rw [relinkFrom, relinkFrom, size_plain]
  induction List.range' first (f.size - first) generalizing f with
  | nil => rfl
  | cons x xs ih => rw [List.foldl_cons, List.foldl_cons, ih, plain_relink]

end Forest

namespace Editing

/-- **Cloning is blind.** -/
theorem blind_clone (x parent : Link) : Blind (clone x parent) := by
  rw [Forest.clone_eq]
  refine (agree_ask fun f => f.cloneDemands_plain ..).bind fun _ => ?_
  cases x with
  | none => exact agree_throw _
  | some source =>
    refine agree_get_bind fun f g agree => ?_
    rw [← f.size_plain, agree, g.size_plain]
    refine (blind_copyTree ..).bind fun copies => ?_
    refine .bind (agree_update fun f => f.plain_relinkFrom ..) fun _ => ?_
    cases copies[source]? with
    | none => exact agree_throw _
    | some copy => exact agree_pure _

end Editing

/-! ## Commands -/

namespace Command

open Editing

/-- Whether a command only writes a mark or a range. -/
def isMark : Command → Bool
  | .edit e => e.isMark
  | _ => false

/-- **Every command but a mark is blind**, under any identity. -/
theorem blind {c : Command} (hc : c.isMark = false) (id : Nat) : Blind (c.run id) := by
  cases c with
  | construct c =>
    refine agree_get_bind fun f g agree => ?_
    rw [← f.size_plain, agree, g.size_plain]
    refine Agree.bind (agree_modify fun f g agree => ?_) fun _ => agree_pure _
    have pools : f.pools = g.pools := (congrArg Forest.pools agree :)
    have next : f.nextEntry = g.nextEntry := (congrArg Forest.nextEntry agree :)
    rw [Forest.construct, Forest.construct, Forest.push, Forest.push, f.plain_append,
      g.plain_append, agree, pools, next]
  | edit e => exact (Edit.blind_run hc).bind fun _ => agree_pure _
  | clone x parent => exact (blind_clone x parent).bind fun _ => agree_pure _
  | clear => exact Agree.bind (agree_modify fun _ _ _ => rfl) fun _ => agree_pure _

end Command

end SyntaxForest
