import SyntaxForest.Proofs.Interference
import SyntaxForest.Proofs.WrittenOnce

/-!
# Identities tell origins

An identity is given away once in a session, however many forests the session has and whatever is
cleared in between; from then on only clones give it to other nodes.  So everything that has ever
carried an identity goes back to one construction, lives in the forest of that construction and is
of its kind.

* `Session.Step`, `Session.after` — sessions that grow: forests are added, and commands are
  performed on any of them;
* `Session.Carried` — what some node has carried at some time of a session;
* `Session.bears_act` — a step lets nothing carry an identity anew, but for a construction, and that
  under the next identity;
* `Session.accounted` — what follows for a whole session, by induction on its steps;
* `Forest.LeadsBack` — the nodes of a copy are found in the source by their identities.

Two nodes of one tree can have the same identity, once clones have been put into it.  Then only the
first of them is found, and that it is of the right kind is known from the session and not from the
tree.
-/

namespace SyntaxForest

variable {f g : Forest}

/-! ## Who carries an identity -/

/-- Some node of the forest has the identity and is of the kind. -/
def Forest.Bears (f : Forest) (id : Nat) (k : Kind) : Prop :=
  ∃ x : Link, f.id? x = some id ∧ f.kind? x = some k

theorem Forest.not_bears_empty (id : Nat) (k : Kind) : ¬ Forest.empty.Bears id k := by
  rintro ⟨_ | x, -, kind⟩ <;> cases kind

/-- A new node carries the identity that it gets, and nothing else does anew. -/
theorem Forest.Bears.of_construct (hf : f.Intact) {n : Nat} {c : Construction} {id : Nat} {k : Kind}
    (h : (f.construct n c).Bears id k) : f.Bears id k ∨ id = n ∧ k = c.kind := by
  obtain ⟨x, hid, kind⟩ := h
  rw [Forest.id?, construct, record?_push _ _ _ _ _ hf] at hid
  rw [Forest.kind?, construct, header?_push] at kind
  by_cases new : x = some f.size
  · rw [if_pos new] at hid kind
    exact .inr ⟨(Option.some.inj hid).symm, (Option.some.inj kind).symm⟩
  · rw [if_neg new] at hid kind
    exact .inl ⟨x, hid, kind⟩

namespace Command

/-- Whatever is not a construction lets nothing carry an identity anew. -/
theorem Effect.bears (hf : f.Linked) {c : Command} {answer : Option NodeIndex}
    (effect : Effect f c answer g) (other : c.isConstruction = false) {id : Nat} {k : Kind}
    (h : g.Bears id k) : f.Bears id k := by
  obtain ⟨x, hid, kind⟩ := h
  cases effect with
  | construct => cases other
  | part _ _ t => exact ⟨x, (t.repeats x).id? ▸ hid, (t.repeats x).kind? ▸ kind⟩
  | value _ w =>
    have kept := w.carries hf.intact x
    exact ⟨x, kept.id? ▸ hid, kept.kind? ▸ kind⟩
  | clone _ t =>
    cases x with
    | none => cases hid
    | some x =>
      rcases t.exists_of_contains hf (Forest.contains_of_kind? kind) with old | ⟨y, hy, rfl⟩
      · have kept := t.repeats_old old
        exact ⟨some x, kept.id? ▸ hid, kept.kind? ▸ kind⟩
      · have copied := t.repeats hy
        exact ⟨some y, copied.id? ▸ hid, copied.kind? ▸ kind⟩
  | clear => exact absurd ⟨x, hid, kind⟩ (Forest.not_bears_empty id k)

/-- Who carries an identity after a command did so before, or has just been made. -/
theorem bears_advance (hf : f.Linked) {n : Nat} {c : Command} {id : Nat} {k : Kind}
    (h : (advance (f, []) (n, c)).1.Bears id k) :
    f.Bears id k ∨ ∃ made, c = .construct made ∧ id = n ∧ k = made.kind := by
  unfold advance at h
  cases run : (c.run n).run f with
  | error err g =>
    rw [run, eq_of_run_error hf run] at h
    exact .inl h
  | ok answer g =>
    rw [run] at h
    cases c with
    | construct made =>
      cases run
      rcases h.of_construct hf.intact with old | new
      · exact .inl old
      · exact .inr ⟨made, rfl, new⟩
    | edit | clone | clear => exact .inl ((effect_of_run_ok hf run).bears hf rfl h)

end Command

/-! ## Sessions that grow -/

namespace Session

/-- What can happen in a session. -/
inductive Step where
  /-- Another forest is there, with room for a number of nodes. -/
  | create (expected : Nat)
  | command (i : Nat) (c : Command)

/-- Whether the step uses up an identity. -/
def Step.isConstruction : Step → Bool
  | .create _ => false
  | .command _ c => c.isConstruction

/-- Perform a command on a forest: the answer, and the session afterwards.  A forest that is not
there is as good as an empty one, but what is made in it is lost. -/
def on (s : Session) (i : Nat) (c : Command) : Except TreeError (Option NodeIndex) × Session :=
  { s with current := i }.respond c

/-- Take a step. -/
def act (s : Session) : Step → Session
  | .create expected => { s with forests := s.forests.push (Forest.withCapacity expected) }
  | .command i c => (s.on i c).2

/-- The session after some steps, over a number of forests to begin with. -/
def after (count : Nat) (steps : List Step) : Session := steps.foldl act (start count)

theorem after_concat (count : Nat) (steps : List Step) (step : Step) :
    after count (steps ++ [step]) = (after count steps).act step := by
  rw [after, List.foldl_append, List.foldl_cons, List.foldl_nil, after]

theorem forest_start (count i : Nat) : (start count).forest i = Forest.empty := by
  simp only [forest, start, Array.getD_eq_getD_getElem?, Array.getElem?_replicate]
  split <;> rfl

/-- A new forest is as empty as one that is not there. -/
theorem forest_create (s : Session) (expected i : Nat) :
    (s.act (.create expected)).forest i = s.forest i := by
  simp only [act, forest, Array.getD_eq_getD_getElem?, Array.getElem?_push]
  split
  · next new => simp [new]; rfl
  · rfl

theorem forest_afterwards (s : Session) (c : Command) (f : Forest) (i : Nat) :
    (s.afterwards c f).forest i =
      if i = s.current ∧ i < s.forests.size then f else s.forest i := by
  simp only [forest, afterwards, replace, Array.getD_eq_getD_getElem?, Array.getElem?_setIfInBounds]
  by_cases here : s.current = i
  · subst here
    by_cases inside : s.current < s.forests.size <;> simp [inside]
  · simp [here, Ne.symm here]

/-- A command runs on its forest, under the next identity. -/
theorem on_eq (s : Session) (i : Nat) (c : Command) : s.on i c =
    match (c.run s.nextId).run (s.forest i) with
    | .ok answer f => (.ok answer, { s with current := i }.afterwards c f)
    | .error e f => (.error e, { s with current := i }.afterwards c f) :=
  respond_eq { s with current := i } c

theorem act_command (s : Session) (i : Nat) (c : Command) : s.act (.command i c) =
    { s with current := i }.afterwards c
      (Command.advance (s.forest i, []) (s.nextId, c)).1 := by
  rw [act, on_eq, Command.advance]
  cases (c.run s.nextId).run (s.forest i) <;> rfl

/-- Each construction uses up an identity, and nothing else does. -/
theorem nextId_act (s : Session) (step : Step) :
    (s.act step).nextId = if step.isConstruction then s.nextId + 1 else s.nextId := by
  cases step with
  | create expected => rfl
  | command i c => rw [act_command]; rfl

/-- A step leaves a forest, or performs a command on it. -/
theorem act_cases (s : Session) (step : Step) (j : Nat) : (s.act step).forest j = s.forest j ∨
    ∃ c, step = .command j c ∧
      (s.act step).forest j = (Command.advance (s.forest j, []) (s.nextId, c)).1 := by
  cases step with
  | create expected => exact .inl (s.forest_create expected j)
  | command i c =>
    rw [act_command, forest_afterwards]
    split
    · next here =>
      obtain ⟨rfl, -⟩ := here
      exact .inr ⟨c, rfl, rfl⟩
    · exact .inl rfl

variable {s : Session}

/-- An answer is that of a run on the forest. -/
theorem exists_run_of_on {i : Nat} {c : Command} {answer : Option NodeIndex}
    (h : (s.on i c).1 = .ok answer) :
    ∃ g, (c.run s.nextId).run (s.forest i) = .ok answer g := by
  rw [on_eq] at h
  cases run : (c.run s.nextId).run (s.forest i) with
  | error err g => rw [run] at h; cases h
  | ok answer' g => rw [run] at h; cases h; exact ⟨g, rfl⟩

/-- What a run leaves is the forest afterwards, if there is one. -/
theorem on_of_run_ok {i : Nat} (inside : i < s.forests.size) {c : Command}
    {answer : Option NodeIndex} (run : (c.run s.nextId).run (s.forest i) = .ok answer g) :
    (s.on i c).1 = .ok answer ∧ (s.on i c).2.forest i = g := by
  rw [on_eq, run]
  exact ⟨rfl, (forest_afterwards ..).trans (if_pos ⟨rfl, inside⟩)⟩

/-- There is no node in a forest that is not there. -/
theorem lt_of_contains {i : Nat} {x : Link} (hx : (s.forest i).contains x) :
    i < s.forests.size := by
  by_contra outside
  rw [forest, Array.getD_eq_getD_getElem?, Array.getElem?_eq_none (Nat.le_of_not_lt outside)] at hx
  cases x <;> cases hx

section

variable (linked : ∀ i, (s.forest i).Linked)
include linked

theorem linked_act (step : Step) (j : Nat) : ((s.act step).forest j).Linked := by
  rcases s.act_cases step j with same | ⟨c, -, same⟩
  · exact same ▸ linked j
  · exact same ▸ Command.linked_advance (linked j) (s.nextId, c)

/-- **Who carries an identity after a step did so before, or has just been made under the next
identity.** -/
theorem bears_act (step : Step) {j id : Nat} {k : Kind} (h : ((s.act step).forest j).Bears id k) :
    (s.forest j).Bears id k ∨
      ∃ made, step = .command j (.construct made) ∧ id = s.nextId ∧ k = made.kind := by
  rcases s.act_cases step j with same | ⟨c, rfl, same⟩
  · exact .inl (same ▸ h)
  · rcases Command.bears_advance (linked j) (same ▸ h) with old | ⟨made, rfl, new⟩
    · exact .inl old
    · exact .inr ⟨made, rfl, new⟩

end

/-! ## Whole sessions -/

/-- At some time of a session, some node of a forest has the identity and is of the kind. -/
def Carried (count : Nat) (steps : List Step) (id i : Nat) (k : Kind) : Prop :=
  ∃ before, before <+: steps ∧ ((after count before).forest i).Bears id k

theorem carried_of_bears {count : Nat} {steps : List Step} {id i : Nat} {k : Kind}
    (h : ((after count steps).forest i).Bears id k) : Carried count steps id i k :=
  ⟨steps, List.prefix_rfl, h⟩

/-- What holds of a session at all times up to the present. -/
structure Accounted (count : Nat) (steps : List Step) : Prop where
  linked : ∀ i, ((after count steps).forest i).Linked
  nextId : (after count steps).nextId = steps.countP (·.isConstruction) + 1
  given : ∀ {id i k}, Carried count steps id i k → 0 < id ∧ id < (after count steps).nextId
  origin : ∀ {id i j k k'}, Carried count steps id i k → Carried count steps id j k' →
    i = j ∧ k = k'

/-- What was carried after a step was carried before, or is what the step has made. -/
theorem Accounted.carried_concat {count : Nat} {steps : List Step} (past : Accounted count steps)
    {step : Step} {id i : Nat} {k : Kind} (h : Carried count (steps ++ [step]) id i k) :
    Carried count steps id i k ∨ ∃ made, step = .command i (.construct made) ∧
      id = (after count steps).nextId ∧ k = made.kind := by
  obtain ⟨before, early, h⟩ := h
  rcases List.prefix_concat_iff.mp early with rfl | early
  · rw [after_concat] at h
    exact (bears_act past.linked step h).imp_left carried_of_bears
  · exact .inl ⟨before, early, h⟩

/-- **Every session can be accounted for.** -/
theorem accounted (count : Nat) (steps : List Step) : Accounted count steps := by
  induction steps using List.reverseRecOn with
  | nil =>
    have nothing {id i : Nat} {k : Kind} : ¬ Carried count [] id i k := by
      rintro ⟨before, early, h⟩
      obtain rfl := List.prefix_nil.mp early
      exact Forest.not_bears_empty id k (forest_start count i ▸ h)
    refine ⟨fun i => ?_, rfl, fun h => absurd h nothing, fun h => absurd h nothing⟩
    exact (forest_start count i).symm ▸ Forest.linked_empty
  | append_singleton steps step past =>
    have onward : (after count steps).nextId ≤ (after count (steps ++ [step])).nextId := by
      rw [after_concat, nextId_act]
      split <;> omega
    refine ⟨?_, ?_, ?_, ?_⟩
    · rw [after_concat]
      exact linked_act past.linked step
    · rw [after_concat, nextId_act, past.nextId, List.countP_append, List.countP_singleton]
      split <;> omega
    · intro id i k h
      rcases past.carried_concat h with old | ⟨made, rfl, rfl, rfl⟩
      · obtain ⟨positive, given⟩ := past.given old
        exact ⟨positive, by omega⟩
      · rw [after_concat, nextId_act]
        exact ⟨by rw [past.nextId]; omega, Nat.lt_succ_self _⟩
    · intro id i j k k' h h'
      -- what is new has the next identity, and everything before has a smaller one
      rcases past.carried_concat h with old | ⟨made, rfl, rfl, rfl⟩
      · rcases past.carried_concat h' with old' | ⟨made, rfl, rfl, rfl⟩
        · exact past.origin old old'
        · exact absurd (past.given old).2 (Nat.lt_irrefl _)
      · rcases past.carried_concat h' with old' | ⟨made', same, -, rfl⟩
        · exact absurd (past.given old').2 (Nat.lt_irrefl _)
        · cases same
          exact ⟨rfl, rfl⟩

end Session

/-! ## From copies back to the source -/

namespace Forest

/-- What is noted for the first time stays noted. -/
theorem getElem?_foldl_insertIfNew (key : NodeIndex → Option Nat) (ys : List NodeIndex)
    (known : Std.TreeMap Nat NodeIndex) (id : Nat) :
    (ys.foldl (fun known y => (key y).elim known (known.insertIfNew · y)) known)[id]? =
      known[id]?.or (ys.find? fun y => key y == some id) := by
  induction ys generalizing known with
  | nil => rw [List.foldl_nil, List.find?_nil, Option.or_none]
  | cons y ys ih =>
    rw [List.foldl_cons, ih, List.find?_cons]
    cases key y with
    | none => rfl
    | some n =>
      rw [Option.elim_some, Std.TreeMap.getElem?_insertIfNew]
      by_cases same : n = id
      · subst same
        have member := Std.TreeMap.isSome_getElem?_iff_mem (t := known) (a := n)
        cases hk : known[n]? with
        | none =>
          have absent : n ∉ known := by simp [← member, hk]
          simp [absent]
        | some first =>
          have present : n ∈ known := by simp [← member, hk]
          simp [present]
      · have other : (n == id) = false := beq_eq_false_iff_ne.mpr same
        simp [other, same]

/-- **The map of a tree finds the first node of each identity.** -/
theorem getElem?_idMap {x : NodeIndex} (hx : f.contains (some x)) (id : Nat) :
    (f.idMap (some x))[id]? =
      (f.preorder (some x)).find? fun y => f.id? (some y) == some id := by
  have noted : f.idMap (some x) = (f.preorder (some x)).foldl
      (fun known y => (f.id? (some y)).elim known (known.insertIfNew · y)) ∅ := by
    rw [idMap_some hx]
    refine List.foldl_ext _ _ _ fun known y _ => ?_
    rw [Forest.id?]
    cases f.record? (some y) <;> rfl
  rw [noted, getElem?_foldl_insertIfNew]
  rfl

/-- The identities of a copy lead back to its source: the tree of the source and its map are what
they were before the copy was made, the map finds for each node of the copy the first node of the
source that has its identity, and it is of its kind and, if no two nodes of the source share an
identity, in the same place. -/
structure LeadsBack (f g : Forest) (source : Link) (copy : NodeIndex) : Prop where
  preorder : g.preorder source = f.preorder source
  idMap : g.idMap source = f.idMap source
  length : (g.preorder (some copy)).length = (g.preorder source).length
  origin : ∀ (i : Nat) (y : NodeIndex), (g.preorder (some copy))[i]? = some y → ∃ id x,
    g.id? (some y) = some id ∧ (g.idMap source)[id]? = some x ∧
      ((g.preorder source).find? fun z => g.id? (some z) == some id) = some x ∧
      g.kind? (some x) = g.kind? (some y) ∧
      (((g.preorder source).map fun z => g.id? (some z)).Nodup →
        (g.preorder source)[i]? = some x)
  keys : ∀ id, id ∈ g.idMap source ↔ ∃ x ∈ g.preorder source, g.id? (some x) = some id

/-- Every node has an identity. -/
theorem Intact.exists_id? (hf : f.Intact) {x : Link} (hx : f.contains x) :
    ∃ id, f.id? x = some id := by
  obtain ⟨r, hr⟩ := Option.isSome_iff_exists.mp (hf.isSome_record?.trans hx)
  exact ⟨r.id, by rw [Forest.id?, hr]; rfl⟩

/-- Where an identity tells the kind, nodes with the same identity are of the same kind. -/
theorem kind?_eq_of_id? (kinds : ∀ {id k k'}, f.Bears id k → f.Bears id k' → k = k')
    {x y : Link} (hx : f.contains x) (hy : f.contains y) {id : Nat} (hid : f.id? x = some id)
    (hid' : f.id? y = some id) : f.kind? x = f.kind? y := by
  obtain ⟨h, hh⟩ := exists_header?_of_contains hx
  obtain ⟨h', hh'⟩ := exists_header?_of_contains hy
  have kind := kind?_of_header? hh
  have kind' := kind?_of_header? hh'
  rw [kind, kind', kinds ⟨x, hid, kind⟩ ⟨y, hid', kind'⟩]

/-- **A clone leads back to its source** in a forest where an identity tells the kind. -/
theorem Cloned.leadsBack (hf : f.Linked) {source : NodeIndex} {parent : Link}
    (clonable : f.Clonable (some source) parent) (t : f.Cloned g source parent)
    (kinds : ∀ {id k k'}, g.Bears id k → g.Bears id k' → k = k') :
    f.LeadsBack g (some source) f.size := by
  have hg := hf.of_cloned t clonable
  have known : ∀ y ∈ f.preorder (some source), f.contains (some y) :=
    fun y hy => hf.contains_of_mem_preorder hy
  have unchanged := (t.keeps known).unchanged hf hg clonable.node
  have there : g.contains (some source) := t.contains_old clonable.node
  have copies : g.preorder (some f.size) = (g.preorder (some source)).map (f.copyOf source) := by
    rw [unchanged.preorder, ← hf.copyOf_source clonable.node]
    exact t.alike_copy.preorder hf hg clonable.node
  refine ⟨unchanged.preorder, unchanged.idMap, by rw [copies, List.length_map], ?_, fun id => ?_⟩
  · intro i y hy
    rw [copies, List.getElem?_map, Option.map_eq_some_iff] at hy
    obtain ⟨z, hz, rfl⟩ := hy
    have listed := List.mem_of_getElem? hz
    have copied : z ∈ f.preorder (some source) := unchanged.preorder ▸ listed
    obtain ⟨id, own⟩ := hf.intact.exists_id? (known z copied)
    have hid := (t.repeats_old (known z copied)).id?.trans own
    have hid' := (t.repeats copied).id?.trans own
    obtain ⟨x, hx⟩ : ∃ x, ((g.preorder (some source)).find? fun w =>
        g.id? (some w) == some id) = some x := by
      rw [← Option.isSome_iff_exists, List.find?_isSome]
      exact ⟨z, listed, beq_iff_eq.mpr hid⟩
    have same : g.id? (some x) = some id := beq_iff_eq.mp (List.find?_some hx :)
    have first := List.mem_of_find?_eq_some hx
    refine ⟨id, x, hid', (getElem?_idMap there _).trans hx, hx, ?_, fun distinct => ?_⟩
    · exact kind?_eq_of_id? kinds (hg.contains_of_mem_preorder first) (t.contains_copy copied) same
        hid'
    · rw [List.inj_on_of_nodup_map distinct first listed (same.trans hid.symm)]
      exact hz
  · rw [← Std.TreeMap.isSome_getElem?_iff_mem, getElem?_idMap there, List.find?_isSome]
    simp only [beq_iff_eq]

end Forest

namespace Session

/-- **Identities tell origins, over a whole session**: forests are added, and commands of all kinds
are performed on any of them, clearing included.

A construction in a forest that is there succeeds, and the new node has an identity that is none of
those that any node of any forest has ever carried, nor the one that is no identity; it counts the
constructions, so that there are enough of them.  Whatever has carried the same identity, at
whatever times, lives in the same forest and is of the same kind.  And so the identities of a clone
lead back to its source. -/
theorem identities_tell_origins (count : Nat) (steps : List Step) :
    (∀ i < (after count steps).forests.size, ∀ c, ∃ x id,
      ((after count steps).on i (.construct c)).1 = .ok (some x) ∧
      (((after count steps).on i (.construct c)).2.forest i).id? (some x) = some id ∧
      id ≠ noId ∧ id = steps.countP (·.isConstruction) + 1 ∧
      ∀ j k, ¬ Carried count steps id j k) ∧
    (∀ id i j k k', Carried count steps id i k → Carried count steps id j k' → i = j ∧ k = k') ∧
    ∀ i x parent y, ((after count steps).on i (.clone x parent)).1 = .ok (some y) →
      ((after count steps).forest i).LeadsBack
        (((after count steps).on i (.clone x parent)).2.forest i) x y := by
  have past := accounted count steps
  refine ⟨fun i inside c => ?_, fun id i j k k' => past.origin, fun i x parent y answer => ?_⟩
  · obtain ⟨answer, made⟩ := on_of_run_ok (c := .construct c)
      (g := ((after count steps).forest i).construct (after count steps).nextId c) inside rfl
    refine ⟨_, (after count steps).nextId, answer, ?_, ?_, past.nextId, fun j k old => ?_⟩
    · rw [made, Forest.id?, Forest.construct,
        Forest.record?_push _ _ _ _ _ (past.linked i).intact, if_pos rfl]
      rfl
    · rw [past.nextId]
      exact Nat.succ_ne_zero _
    · exact absurd (past.given old).2 (Nat.lt_irrefl _)
  · obtain ⟨g, run⟩ := exists_run_of_on answer
    cases Command.effect_of_run_ok (past.linked i) run with
    | @clone _ source _ clonable t =>
      obtain ⟨-, left⟩ := on_of_run_ok (lt_of_contains clonable.node) run
      have later := accounted count (steps ++ [.command i (.clone (some source) parent)])
      have now :
          (after count (steps ++ [.command i (.clone (some source) parent)])).forest i = g := by
        rw [after_concat]
        exact left
      rw [left]
      refine t.leadsBack (past.linked i) clonable fun h h' => ?_
      exact (later.origin (carried_of_bears (now ▸ h)) (carried_of_bears (now ▸ h'))).2

/-- Two forests.  In the first, a block holds a name and a clone of it, which have one identity. -/
def sharing : List Step :=
  [.create 0, .command 0 (.construct (.node .block 0 0)), .command 0 (.construct (.name 0 "a")),
    .command 0 (.edit (.append .statements (some 0) (some 1))), .command 0 (.clone (some 1) none),
    .command 0 (.edit (.append .statements (some 0) (some 2))),
    .command 1 (.construct (.node .block 0 0))]

/-- The block is cloned, and the copies of the name and of its clone both lead back to the name.  Or
else the first forest is cleared, and the next node in the other one gets an identity that is
new. -/
theorem identities_tell_origins_sharing :
    (((after 1 sharing).on 0 (.clone (some 0) none)).1 = .ok (some 3) ∧
      (((after 1 sharing).on 0 (.clone (some 0) none)).2.forest 0).id? (some 5) = some 2 ∧
      ((((after 1 sharing).on 0 (.clone (some 0) none)).2.forest 0).idMap (some 0))[2]? =
        some 1) ∧
    ∃ x id, ((after 1 (sharing ++ [.command 0 .clear])).on 1 (.construct (.name 0 "b"))).1 =
        .ok (some x) ∧ id = 4 ∧ ∀ j k, ¬ Carried 1 (sharing ++ [.command 0 .clear]) id j k := by
  have cloned : ((after 1 sharing).on 0 (.clone (some 0) none)).1 = .ok (some 3) := by
    decide +kernel
  have last : ((((after 1 sharing).on 0 (.clone (some 0) none)).2.forest 0).preorder
      (some 3))[2]? = some 5 := by decide +kernel
  have shared : (((after 1 sharing).on 0 (.clone (some 0) none)).2.forest 0).id? (some 5) =
      some 2 := by decide +kernel
  have first : ((((after 1 sharing).on 0 (.clone (some 0) none)).2.forest 0).preorder
      (some 0)).find? (fun z => (((after 1 sharing).on 0 (.clone (some 0) none)).2.forest 0).id?
        (some z) == some 2) = some 1 := by decide +kernel
  obtain ⟨id, x, hid, hx, found, -, -⟩ :=
    ((identities_tell_origins 1 sharing).2.2 0 (some 0) none 3 cloned).origin 2 5 last
  obtain rfl := Option.some.inj (hid.symm.trans shared)
  obtain rfl := Option.some.inj (found.symm.trans first)
  have inside : 1 < (after 1 (sharing ++ [.command 0 .clear])).forests.size := by decide +kernel
  obtain ⟨x, id, made, -, -, next, fresh⟩ :=
    (identities_tell_origins 1 (sharing ++ [.command 0 .clear])).1 1 inside (.name 0 "b")
  exact ⟨⟨cloned, shared, hx⟩, x, id, made, next, fresh⟩

end Session

end SyntaxForest
