import SyntaxForest.Proofs.Acyclic
import SyntaxForest.Proofs.Cloned

/-!
# What is left of a clone that fails

In a forest that was read from a text a node of a tree can be missing, or be without contents or
without record.  Cloning asks for the parts of a node when it comes to the node, so then it fails
with some of the copies already made.

Whatever fails, what was there before is as it was (`Forest.Extends`): each step of copying adds
something or fails (`Editing.Adds`), and renaming comes when nothing fails any more.  Nothing at all
is left behind exactly if a demand is not met or the first node cannot be copied
(`Forest.failed_clone`); in particular if every node of the tree has its parts (`Forest.Equipped`),
where only a demand can fail.
-/

namespace SyntaxForest

namespace Forest

/-- Every part of a node that is found in one forest is found in the other. -/
structure Extends (f g : Forest) : Prop where
  header? : ∀ {x h}, f.header? x = some h → g.header? x = some h
  record? : ∀ {x r}, f.record? x = some r → g.record? x = some r
  get? : ∀ {k i c}, f.pools.get? k i = some c → g.pools.get? k i = some c

namespace Extends

variable {f g g' : Forest}

theorem refl (f : Forest) : f.Extends f := ⟨id, id, id⟩

theorem trans (h : f.Extends g) (h' : g.Extends g') : f.Extends g' :=
  ⟨fun found => h'.header? (h.header? found), fun found => h'.record? (h.record? found),
    fun found => h'.get? (h.get? found)⟩

theorem held? (h : f.Extends g) {header : Header} {c : Contents} (hc : f.held? header = some c) :
    g.held? header = some c := by
  obtain ⟨i, hi, found⟩ := Option.bind_eq_some_iff.mp hc
  exact Option.bind_eq_some_iff.mpr ⟨i, hi, h.get? found⟩

end Extends

/-- Contents that are added to a pool stand behind what was there. -/
theorem extends_push_pools (f : Forest) (c : Contents) :
    f.Extends { f with pools := f.pools.push c } where
  header? := id
  record? := id
  get? {k i} _ found := by
    have before := Pools.isSome_get?_iff.mp (Option.isSome_of_eq_some found)
    rw [Pools.get?_push, if_neg fun last => Nat.ne_of_lt before last.2]
    exact found

/-- A header and a record that are added stand behind those that were there. -/
theorem extends_push (f : Forest) (h : Header) (r : NodeRecord) :
    f.Extends { f with headers := f.headers.push h, records := f.records.push r } where
  header? {x _} found := by
    obtain ⟨x, rfl, found⟩ := Option.bind_eq_some_iff.mp found
    have before := (Array.getElem?_eq_some_iff.mp found).1
    simpa [Forest.header?, Array.getElem?_push, Nat.ne_of_lt before] using found
  record? {x _} found := by
    obtain ⟨x, rfl, found⟩ := Option.bind_eq_some_iff.mp found
    have before := (Array.getElem?_eq_some_iff.mp found).1
    simpa [Forest.record?, Array.getElem?_push, Nat.ne_of_lt before] using found
  get? := id

end Forest

/-! ## Computations that only add -/

namespace Editing

variable {α β : Type}

/-- What succeeds has succeeded step by step. -/
theorem exists_of_bind_ok {m : Editing α} {next : α → Editing β} {f g : Forest} {b : β}
    (run : (m >>= next).run f = .ok b g) :
    ∃ a f', m.run f = .ok a f' ∧ (next a).run f' = .ok b g := by
  rw [EStateM.run_bind] at run
  cases first : m.run f with
  | error e f' => rw [first] at run; cases run
  | ok a f' => exact ⟨a, f', rfl, by rwa [first] at run⟩

/-- Whether it succeeds or fails, the computation leaves what was there. -/
def Adds (m : Editing α) : Prop :=
  ∀ f, match m.run f with
    | .ok _ g => f.Extends g
    | .error _ g => f.Extends g

theorem Adds.of_ok {m : Editing α} (h : m.Adds) {f g : Forest} {a : α} (run : m.run f = .ok a g) :
    f.Extends g := by
  have adds := h f
  rwa [run] at adds

theorem Adds.of_error {m : Editing α} (h : m.Adds) {f g : Forest} {e : TreeError}
    (run : m.run f = .error e g) : f.Extends g := by
  have adds := h f
  rwa [run] at adds

theorem adds_pure (a : α) : Adds (pure a) := Forest.Extends.refl

theorem adds_throw (e : TreeError) : Adds (throw e : Editing α) := Forest.Extends.refl

theorem adds_get : Adds get := Forest.Extends.refl

theorem adds_ask (question : Forest → Except TreeError α) : Adds (ask question) := by
  intro f
  rw [run_ask]
  cases question f <;> exact .refl f

theorem adds_modify {change : Forest → Forest} (h : ∀ f : Forest, f.Extends (change f)) :
    Adds (modify change) := h

theorem Adds.bind {m : Editing α} {next : α → Editing β} (h : m.Adds) (hnext : ∀ a, (next a).Adds) :
    Adds (m >>= next) := by
  intro f
  rw [EStateM.run_bind]
  cases run : m.run f with
  | error e g => exact h.of_error run
  | ok a g =>
    have first := h.of_ok run
    have rest := hnext a g
    show match (next a).run g with
      | .ok _ g' => f.Extends g'
      | .error _ g' => f.Extends g'
    cases run' : (next a).run g with
    | error e g' => exact first.trans ((hnext a).of_error run')
    | ok b g' => exact first.trans ((hnext a).of_ok run')

theorem adds_copyContents (x : NodeIndex) (h : Header) : (copyContents x h).Adds := by
  unfold copyContents
  split
  · exact adds_pure none
  · refine adds_get.bind fun f => ?_
    split
    · exact adds_throw _
    · exact adds_get.bind fun _ =>
        (adds_modify (Forest.extends_push_pools · _)).bind fun _ => adds_pure _

theorem adds_copyNode (x : NodeIndex) (parent : Link) : (copyNode x parent).Adds := by
  unfold copyNode
  refine (adds_ask _).bind fun h => (adds_copyContents x h).bind fun entry =>
    adds_get.bind fun f => ?_
  split
  · exact adds_throw _
  · exact adds_get.bind fun _ =>
      (adds_modify (Forest.extends_push · _ _)).bind fun _ => adds_pure _

/-- What is left to do for a tree when its first node has been copied. -/
def copyBelow (room : Nat) (copies : Copies) (x copy : NodeIndex) : Editing Copies :=
  match room with
  | 0 => pure (copies.insert x copy)
  | room + 1 => do ((← get).below x).foldlM (copyTree room copy) (copies.insert x copy)

theorem copyTree_eq (room : Nat) (parent : Link) (copies : Copies) (x : NodeIndex) :
    copyTree room parent copies x = copyNode x parent >>= copyBelow room copies x := by
  cases room <;> rfl

theorem adds_foldlM {next : β → α → Editing β} (h : ∀ b a, (next b a).Adds) (as : List α) (b : β) :
    (as.foldlM next b).Adds := by
  induction as generalizing b with
  | nil => exact adds_pure b
  | cons a as ih =>
    rw [List.foldlM_cons]
    exact (h b a).bind ih

/-- Steps succeed in a row if each of them succeeds whatever has been added before. -/
theorem exists_foldlM_ok {next : β → α → Editing β} (adds : ∀ b a, (next b a).Adds)
    {f g : Forest} {as : List α}
    (h : ∀ a ∈ as, ∀ g, f.Extends g → ∀ b, ∃ b' g', (next b a).run g = .ok b' g')
    (hg : f.Extends g) (b : β) : ∃ b' g', (as.foldlM next b).run g = .ok b' g' := by
  induction as generalizing g b with
  | nil => exact ⟨b, g, rfl⟩
  | cons a as ih =>
    obtain ⟨first, rest⟩ := List.forall_mem_cons.mp h
    obtain ⟨b₁, g₁, run₁⟩ := first g hg b
    obtain ⟨b₂, g₂, run₂⟩ := ih rest (hg.trans ((adds b a).of_ok run₁)) b₁
    refine ⟨b₂, g₂, ?_⟩
    rw [List.foldlM_cons, EStateM.run_bind, run₁]
    exact run₂

/-- What each step keeps is kept by steps in a row. -/
theorem of_foldlM_ok {next : β → α → Editing β} {P : β → Prop}
    (keeps : ∀ {f g a b b'}, (next b a).run f = .ok b' g → P b → P b') {as : List α}
    {f g : Forest} {b b' : β} (run : (as.foldlM next b).run f = .ok b' g) (h : P b) : P b' := by
  induction as generalizing f b with
  | nil => cases run; exact h
  | cons a as ih =>
    rw [List.foldlM_cons] at run
    obtain ⟨b₁, g₁, first, rest⟩ := exists_of_bind_ok run
    exact ih rest (keeps first h)

theorem adds_copyTree (room : Nat) (parent : Link) (copies : Copies) (x : NodeIndex) :
    Adds (copyTree room parent copies x) := by
  induction room generalizing parent copies x with
  | zero => exact (adds_copyNode x parent).bind fun _ => adds_pure _
  | succ room ih =>
    exact (adds_copyNode x parent).bind fun copy => adds_get.bind fun f =>
      adds_foldlM (ih copy) (f.below x) _

theorem adds_copyBelow (room : Nat) (copies : Copies) (x copy : NodeIndex) :
    Adds (copyBelow room copies x copy) := by
  cases room with
  | zero => exact adds_pure _
  | succ room =>
    exact adds_get.bind fun f => adds_foldlM (adds_copyTree room copy) (f.below x) _

/-! ## Copying a node -/

variable {f g : Forest}

/-- What copying a node comes to, whatever its parts are.  The contents are copied before the record
is looked for. -/
theorem run_copyNode (f : Forest) (x : NodeIndex) (parent : Link) :
    (copyNode x parent).run f =
      match f.header? (some x) with
      | none => .error (.unknownNode x) f
      | some h =>
        if h.kind.isBare then
          match f.record? (some x) with
          | none => .error (.unknownNode x) f
          | some r => .ok f.size { f with
              headers := f.headers.push { h with entry := none }
              records := f.records.push { r with parent } }
        else
          match f.held? h with
          | none => .error (.unknownNode x) f
          | some c =>
            match f.record? (some x) with
            | none => .error (.unknownNode x) { f with pools := f.pools.push c }
            | some r => .ok f.size {
                headers := f.headers.push { h with entry := some (f.nextEntry c) }
                records := f.records.push { r with parent }
                pools := f.pools.push c } := by
  unfold copyNode copyContents
  simp only [EStateM.run_bind, run_ask, Forest.header]
  cases hh : f.header? (some x) with
  | none => rfl
  | some h =>
    cases bare : h.kind.isBare with
    | true =>
      simp only [bare, if_true, EStateM.run_pure, EStateM.run_get]
      cases f.record? (some x) <;> rfl
    | false =>
      simp only [bare, Bool.false_eq_true, if_false, EStateM.run_get, EStateM.run_bind]
      cases f.held? h with
      | none => rfl
      | some c =>
        simp only [EStateM.run_bind, EStateM.run_get, EStateM.run_modify, EStateM.run_pure]
        have same : ({ f with pools := f.pools.push c } : Forest).record? (some x) =
            f.record? (some x) := rfl
        rw [same]
        cases f.record? (some x) <;> rfl

end Editing

namespace Forest

/-- Copying the node adds something: it has contents, or it is of a kind without contents and has a
record. -/
def Begins (f : Forest) (x : Link) : Prop :=
  ∃ h, f.header? x = some h ∧ if h.kind.isBare then (f.record? x).isSome else (f.held? h).isSome

/-- Every part of the node is there. -/
def Equipped (f : Forest) (x : Link) : Prop :=
  ∃ h, f.header? x = some h ∧ (h.kind.isBare ∨ (f.held? h).isSome) ∧ (f.record? x).isSome

end Forest

namespace Editing

variable {f g g' : Forest} {x : NodeIndex} {parent : Link} {e : TreeError}

/-- A node more is not taken back by adding to it. -/
theorem ne_of_copyNode_ok {copy : NodeIndex} (run : (copyNode x parent).run f = .ok copy g)
    (h : g.Extends g') : g' ≠ f := by
  rintro rfl
  have more : g.size = g'.size + 1 := by
    rw [run_copyNode] at run
    repeat' split at run
    all_goals cases run
    all_goals exact Array.size_push ..
  have inside : g.contains (some g'.size) :=
    Forest.contains_some.mpr (more ▸ Nat.lt_succ_self g'.size)
  obtain ⟨header, found⟩ := Forest.exists_header?_of_contains inside
  exact Nat.lt_irrefl _ (Forest.contains_some.mp (Forest.contains_of_header? (h.header? found)))

/-- A node that is copied adds something. -/
theorem begins_of_copyNode_ok {copy : NodeIndex} (run : (copyNode x parent).run f = .ok copy g) :
    f.Begins (some x) := by
  rw [run_copyNode] at run
  split at run
  · cases run
  · next h hh =>
    refine ⟨h, hh, ?_⟩
    split at run
    · next bare =>
      rw [if_pos bare]
      split at run
      · cases run
      · next hr => exact Option.isSome_of_eq_some hr
    · next bare =>
      rw [if_neg bare]
      split at run
      · cases run
      · next hc => exact Option.isSome_of_eq_some hc

/-- If copying a node fails, contents may have been added, and else nothing. -/
theorem copyNode_error (run : (copyNode x parent).run f = .error e g) :
    g = f ↔ ¬ f.Begins (some x) := by
  rw [run_copyNode] at run
  split at run
  · next hh =>
    cases run
    refine iff_of_true rfl ?_
    rintro ⟨h, hh', -⟩
    cases hh.symm.trans hh'
  · next h hh =>
    have own : f.Begins (some x) ↔
        if h.kind.isBare then (f.record? (some x)).isSome else (f.held? h).isSome := by
      refine ⟨?_, fun begins => ⟨h, hh, begins⟩⟩
      rintro ⟨h', hh', begins⟩
      obtain rfl := Option.some.inj (hh.symm.trans hh')
      exact begins
    rw [own]
    split at run
    · next bare =>
      rw [if_pos bare]
      split at run
      · next hr => cases run; simp [hr]
      · cases run
    · next bare =>
      rw [if_neg bare]
      split at run
      · next hc => cases run; simp [hc]
      · next c hc =>
        split at run
        · cases run
          rw [hc]
          -- the pool is longer by one
          refine iff_of_false (fun same => ?_) (by simp)
          have sizes := congrArg (·.pools.size c.kind) same
          simp [Pools.size_push] at sizes
        · cases run

/-- A node with all its parts is copied. -/
theorem copyNode_of_equipped (equipped : f.Equipped (some x)) (h : f.Extends g) (parent : Link) :
    ∃ g', (copyNode x parent).run g = .ok g.size g' := by
  obtain ⟨header, hheader, parts, hrecord⟩ := equipped
  obtain ⟨r, hr⟩ := Option.isSome_iff_exists.mp hrecord
  rw [run_copyNode, h.header? hheader, h.record? hr]
  dsimp only
  split
  · exact ⟨_, rfl⟩
  · next other =>
    obtain ⟨c, hc⟩ := Option.isSome_iff_exists.mp (parts.resolve_left other)
    rw [h.held? hc]
    exact ⟨_, rfl⟩

/-- Where a node has all its parts, it keeps what is below it. -/
theorem below_of_equipped (equipped : f.Equipped (some x)) (h : f.Extends g) :
    g.below x = f.below x := by
  obtain ⟨header, hheader, parts, -⟩ := equipped
  have held : g.held? header = f.held? header := by
    cases hc : f.held? header with
    | some c => exact h.held? hc
    | none =>
      rw [hc] at parts
      have bare : header.kind.isBare := parts.resolve_right Bool.false_ne_true
      rw [Forest.held?]
      cases header.entry with
      | none => rfl
      | some i => cases hk : header.kind <;> rw [hk] at bare <;> cases bare <;> rfl
  simp only [Forest.below, Forest.children, Forest.contents?, hheader, h.header? hheader,
    Option.bind_some, held]

/-- **A tree is copied in which every node has all its parts**, whatever has been added before. -/
theorem copyTree_of_equipped {room : Nat}
    (equipped : ∀ y ∈ Traversal.unfolding f.below room x, f.Equipped (some y)) (h : f.Extends g)
    (parent : Link) (copies : Copies) :
    ∃ copies' g', (copyTree room parent copies x).run g = .ok copies' g' := by
  induction room generalizing x g parent copies with
  | zero =>
    obtain ⟨g₁, run⟩ := copyNode_of_equipped (equipped x (by simp [Traversal.unfolding])) h parent
    rw [copyTree_eq, EStateM.run_bind, run]
    exact ⟨_, _, rfl⟩
  | succ room ih =>
    have own := equipped x (by simp [Traversal.unfolding])
    obtain ⟨g₁, run⟩ := copyNode_of_equipped own h parent
    have h₁ := h.trans ((adds_copyNode x parent).of_ok run)
    have children : ∀ y ∈ f.below x, ∀ g₂, f.Extends g₂ → ∀ copies, ∃ copies' g',
        (copyTree room (some g.size) copies y).run g₂ = .ok copies' g' := by
      intro y hy g₂ h₂ copies
      refine ih (fun z hz => equipped z ?_) h₂ (some g.size) copies
      rw [Traversal.unfolding]
      exact List.mem_cons_of_mem x (List.mem_flatMap.mpr ⟨y, hy, hz⟩)
    rw [copyTree_eq, EStateM.run_bind, run]
    have below := below_of_equipped own h₁
    obtain ⟨copies', g', run'⟩ :=
      exists_foldlM_ok (adds_copyTree room (some g.size)) children h₁ (copies.insert x g.size)
    refine ⟨copies', g', ?_⟩
    rw [← below] at run'
    exact run'

/-- What has been copied stays among the copies, and a node whose tree is copied is among them. -/
theorem isSome_of_copyTree {room : Nat} {copies copies' : Copies}
    (run : (copyTree room parent copies x).run f = .ok copies' g) :
    copies'[x]?.isSome ∧ ∀ y : NodeIndex, copies[y]?.isSome → copies'[y]?.isSome := by
  have inserted (copies : Copies) (x copy y : NodeIndex) (h : x = y ∨ copies[y]?.isSome) :
      (copies.insert x copy)[y]?.isSome := by
    rw [Std.TreeMap.getElem?_insert]
    by_cases same : x = y
    · simp [same]
    · simpa [same] using h
  induction room generalizing x parent copies copies' f g with
  | zero =>
    rw [copyTree_eq] at run
    obtain ⟨copy, g₁, -, rest⟩ := exists_of_bind_ok run
    cases rest
    exact ⟨inserted _ _ _ _ (.inl rfl), fun y known => inserted _ _ _ _ (.inr known)⟩
  | succ room ih =>
    rw [copyTree_eq] at run
    obtain ⟨copy, g₁, -, rest⟩ := exists_of_bind_ok run
    have kept (y : NodeIndex) (known : (copies.insert x copy)[y]?.isSome) : copies'[y]?.isSome :=
      of_foldlM_ok (fun step => (ih step).2 y) rest known
    exact ⟨kept x (inserted _ _ _ _ (.inl rfl)), fun y known =>
      kept y (inserted _ _ _ _ (.inr known))⟩

end Editing

namespace Forest

variable {f g : Forest} {x parent : Link} {e : TreeError}

/-- A clone whose demands are met fails only in copying. -/
theorem exists_copyTree_error (clonable : f.Clonable x parent)
    (run : (Editing.clone x parent).run f = .error e g) :
    ∃ source, x = some source ∧ (Editing.copyTree f.size parent ∅ source).run f = .error e g := by
  rw [clone_eq, EStateM.run_bind, Editing.run_ask, cloneDemands_eq_ok_iff.mpr clonable] at run
  cases x with
  | none => cases clonable.node
  | some source =>
    refine ⟨source, rfl, ?_⟩
    replace run : (performClone (some source) parent).run f = .error e g := run
    simp only [performClone, EStateM.run_bind, EStateM.run_get] at run
    cases tree : (Editing.copyTree f.size parent ∅ source).run f with
    | error e' g' =>
      rw [tree] at run
      cases run
      rfl
    | ok copies g' =>
      obtain ⟨copy, found⟩ :=
        Option.isSome_iff_exists.mp (Editing.isSome_of_copyTree tree).1
      rw [tree] at run
      simp only [EStateM.run_modify, found] at run
      cases run

/-- **A clone that fails changes nothing that was there.**  It leaves the forest as it was exactly
if a demand is not met or if copying the first node adds nothing; and so it does if every node of
the tree has all its parts. -/
theorem failed_clone (run : (Editing.clone x parent).run f = .error e g) :
    f.Extends g ∧ (g = f ↔ ¬ (f.Clonable x parent ∧ f.Begins x)) ∧
      ((∀ y ∈ f.preorder x, f.Equipped (some y)) → g = f) := by
  by_cases clonable : f.Clonable x parent
  · obtain ⟨source, rfl, tree⟩ := exists_copyTree_error clonable run
    refine ⟨(Editing.adds_copyTree f.size parent ∅ source).of_error tree, ?_, fun equipped => ?_⟩
    · rw [and_iff_right clonable]
      rw [Editing.copyTree_eq, EStateM.run_bind] at tree
      cases first : (Editing.copyNode source parent).run f with
      | error e' g' =>
        rw [first] at tree
        cases tree
        exact Editing.copyNode_error first
      | ok copy g' =>
        rw [first] at tree
        have rest := (Editing.adds_copyBelow f.size ∅ source copy).of_error tree
        exact iff_of_false (Editing.ne_of_copyNode_ok first rest)
          (not_not_intro (Editing.begins_of_copyNode_ok first))
    · rw [preorder_some clonable.node] at equipped
      obtain ⟨copies, g', run'⟩ := Editing.copyTree_of_equipped equipped (.refl f) parent ∅
      cases run'.symm.trans tree
  · obtain ⟨e', run'⟩ := run_clone_of_not_clonable clonable
    cases run.symm.trans run'
    exact ⟨.refl f, iff_of_true rfl fun both => clonable both.1, fun _ => rfl⟩

/-- A forest that was read with a node missing: an array whose element is no node. -/
def gapped : Forest where
  headers := #[⟨.arrayLiteral, 0, 0, some 0⟩]
  records := #[{}]
  pools := { arrayLiterals := #[{ elements := [some 7] }] }

/-- Cloning the array fails at its element. -/
theorem run_clone_gapped : ∃ g, (Editing.clone (some 0) none).run gapped =
    .error (.unknownNode (some 7)) g ∧ g.size = 2 := ⟨_, rfl, rfl⟩

/-- A forest in which nothing is missing: a block without statements. -/
def lone : Forest := Forest.empty.construct 1 (.node .block 0 0)

/-- The clone of the array fails at its element, and the array stays where it was with a copy behind
it.  A clone of the block under a node that is not there fails as well, and leaves nothing. -/
theorem failed_clone_gapped :
    (∃ g, (Editing.clone (some 0) none).run gapped = .error (.unknownNode (some 7)) g ∧
      gapped.Extends g ∧ g ≠ gapped ∧ gapped.Begins (some 0)) ∧
    (∀ y ∈ lone.preorder (some 0), lone.Equipped (some y)) ∧
    ∃ g, (Editing.clone (some 0) (some 1)).run lone = .error (.unknownNode (some 1)) g ∧
      g = lone := by
  refine ⟨?_, ?_⟩
  · obtain ⟨g, run, size⟩ := run_clone_gapped
    obtain ⟨extends_, same, -⟩ := failed_clone run
    have other : g ≠ gapped := by
      rintro rfl
      cases size
    exact ⟨g, run, extends_, other, (not_not.mp (mt same.mpr other)).2⟩
  · have equipped : ∀ y ∈ lone.preorder (some 0), lone.Equipped (some y) := by
      have nodes : lone.preorder (some 0) = [0] := by decide +kernel
      rw [nodes, List.forall_mem_singleton]
      exact ⟨_, rfl, .inr rfl, rfl⟩
    obtain ⟨g, run⟩ : ∃ g, (Editing.clone (some 0) (some 1)).run lone =
        .error (.unknownNode (some 1)) g := ⟨_, rfl⟩
    exact ⟨equipped, g, run, (failed_clone run).2.2 equipped⟩

/-- **A clone that fails can leave copies behind**, in a forest without circles. -/
theorem failed_clone_leaves_copies : ∃ f g e, f.Acyclic ∧
    (Editing.clone (some 0) none).run f = .error e g ∧ g.size ≠ f.size := by
  obtain ⟨g, run, size⟩ := run_clone_gapped
  refine ⟨gapped, g, _, fun x circle => ?_, run, by rw [size]; decide⟩
  -- the element, which has nothing below it, is all there is below a node
  have only {x y : NodeIndex} (below : y ∈ gapped.below x) : x = 0 ∧ y = 7 := by
    cases x with
    | zero => exact ⟨rfl, List.mem_singleton.mp below⟩
    | succ x => cases below
  obtain ⟨y, first, -⟩ := Relation.TransGen.head'_iff.mp circle
  obtain ⟨z, -, last⟩ := Relation.TransGen.tail'_iff.mp circle
  cases (only first).1.symm.trans (only last).2

end Forest

end SyntaxForest
