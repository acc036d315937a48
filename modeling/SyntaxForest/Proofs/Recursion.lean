import SyntaxForest.Proofs.Asking
import SyntaxForest.Proofs.Room

/-!
# The recursion behind a stack

An assembly builds results from an explicit stack, with finished results waiting on a desk that has
one place for each node.  Meant is a recursion: first the results of the parts, in order, then the
own result from them.  `Assembly.Recursive` says that a function is this recursion; it mentions
neither stack nor desk nor bound, and where a rank falls from jobs to their parts there is exactly
one such function (`exists_recursive`, `Recursive.unique`).

* `Recursive.of_run` — whatever a stack answers is what recursion gives, also where nodes stand in
  several places.  What is load-bearing is the state of the desk behind a finished job: its result
  is there, and of everything below it nothing is left (`perform_opening_ok`).  So a result that was
  overwritten by a second one for the same node is not there any more when it is asked for, and the
  stack fails instead of answering wrongly.
* `Recursive.run_eq` — where every node stands in one place, stack and recursion agree, errors
  included.

Both need of the recipes only that they use their parts (`Recipe.Uses`).
-/

namespace SyntaxForest

namespace Assembly

variable {α β : Type}

/-! ## The recursion -/

/-- Look the result for a child up among some results. -/
def lookIn (results : List (NodeIndex × α)) (child : Link) : Except TreeError α :=
  match child.bind fun c => results.lookup c with
  | some result => .ok result
  | none => .error (.unknownNode child)

/-- The results of some jobs in order, each with its node; the first error is the error of all. -/
def gather (a : Assembly α β) (results : β → Except TreeError α) (jobs : List β) :
    Except TreeError (List (NodeIndex × α)) :=
  jobs.mapM fun job => do pure (a.node job, ← results job)

/-- One round of recursion: the results of the parts, and then the recipe of the job with them. -/
def round (a : Assembly α β) (results : β → Except TreeError α) (job : β) :
    Except TreeError α := do
  let found ← a.gather results (← a.parts job)
  (a.recipe job).withParts (lookIn found)

/-- The function gives the results by recursion: every result is one round over the results of the
parts. -/
def Recursive (a : Assembly α β) (results : β → Except TreeError α) : Prop :=
  ∀ job, results job = a.round results job

/-- The recipe of every job uses the nodes of its parts. -/
def Thorough (a : Assembly α β) : Prop :=
  ∀ job parts, a.parts job = .ok parts → (a.recipe job).Uses (parts.map a.node)

variable {a : Assembly α β} {results : β → Except TreeError α} {rank : β → Nat}

theorem below_of_parts {job : β} {parts : List β} (h : a.parts job = .ok parts) :
    a.below job = parts := by
  rw [below, h]

theorem gather_cons (results : β → Except TreeError α) (job : β) (jobs : List β) :
    a.gather results (job :: jobs) = do
      let result ← results job
      return (a.node job, result) :: (← a.gather results jobs) := by
  simp only [gather, List.mapM_cons, bind_assoc, pure_bind]

/-- The results without their nodes are what the jobs give in order. -/
theorem map_snd_gather (results : β → Except TreeError α) (jobs : List β) :
    (a.gather results jobs).map (List.map Prod.snd) = jobs.mapM results := by
  induction jobs with
  | nil => rfl
  | cons job jobs ih =>
    rw [gather_cons, List.mapM_cons, ← ih]
    cases results job with
    | error => rfl
    | ok result => cases a.gather results jobs <;> rfl

theorem gather_congr {results' : β → Except TreeError α} {jobs : List β}
    (h : ∀ job ∈ jobs, results job = results' job) :
    a.gather results jobs = a.gather results' jobs := by
  induction jobs with
  | nil => rfl
  | cons job jobs ih =>
    rw [gather_cons, gather_cons, h job List.mem_cons_self,
      ih fun j hj => h j (List.mem_cons_of_mem job hj)]

/-- A round of a job with known parts. -/
theorem round_of_parts {job : β} {parts : List β} (h : a.parts job = .ok parts) :
    a.round results job =
      a.gather results parts >>= fun found => (a.recipe job).withParts (lookIn found) := by
  rw [round, h]
  rfl

/-- Only the results of the parts matter. -/
theorem round_congr {results' : β → Except TreeError α} {job : β}
    (h : ∀ part ∈ a.below job, results part = results' part) :
    a.round results job = a.round results' job := by
  cases hparts : a.parts job with
  | error => rw [round, round, hparts]; rfl
  | ok parts =>
    rw [below_of_parts hparts] at h
    rw [round_of_parts hparts, round_of_parts hparts, gather_congr h]

/-- Recursion with room for some more levels is a round of recursion. -/
theorem byRecursion_succ (a : Assembly α β) (room : Nat) (job : β) :
    a.byRecursion (room + 1) job = a.round (a.byRecursion room) job := rfl

/-- What has no parts needs no room. -/
theorem byRecursion_zero {job : β} (h : a.below job = []) :
    a.byRecursion 0 job = a.round results job := by
  unfold byRecursion round
  cases hparts : a.parts job with
  | error => rfl
  | ok parts =>
    obtain rfl : parts = [] := (below_of_parts hparts).symm.trans h
    rfl

variable (descends : ∀ job, ∀ part ∈ a.below job, rank part < rank job)
include descends

/-- More room than for the rank of a job makes no difference. -/
theorem byRecursion_of_le {room room' : Nat} {job : β} (h : rank job ≤ room)
    (hle : room ≤ room') : a.byRecursion room' job = a.byRecursion room job := by
  induction room generalizing room' job with
  | zero =>
    have leaf := Traversal.below_eq_nil descends (Nat.le_zero.mp h)
    cases room' with
    | zero => rfl
    | succ room' => rw [byRecursion_succ, byRecursion_zero leaf]
  | succ room ih =>
    obtain ⟨room', rfl⟩ : ∃ n, room' = n + 1 := ⟨room' - 1, by omega⟩
    rw [byRecursion_succ, byRecursion_succ]
    refine round_congr fun part hpart => ?_
    have lower := descends job part hpart
    exact ih (by omega) (by omega)

/-- **Recursion without a bound is possible.** -/
theorem exists_recursive : ∃ results, a.Recursive results := by
  refine ⟨fun job => a.byRecursion (rank job) job, fun job => ?_⟩
  show a.byRecursion (rank job) job = _
  rw [← byRecursion_of_le descends (Nat.le_refl _) (Nat.le_succ _), byRecursion_succ]
  refine round_congr fun part hpart => ?_
  exact byRecursion_of_le descends (Nat.le_refl _) (Nat.le_of_lt (descends job part hpart))

/-- **There is one recursion.** -/
theorem Recursive.unique {results' : β → Except TreeError α} (h : a.Recursive results)
    (h' : a.Recursive results') : results = results' := by
  funext job
  induction hn : rank job using Nat.strongRecOn generalizing job with
  | ind n ih =>
    rw [h job, h' job]
    refine round_congr fun part hpart => ?_
    exact ih (rank part) (hn ▸ descends job part hpart) part rfl

omit descends

/-! ## Results of several parts -/

/-- Results are gathered under the nodes of their parts. -/
theorem nodes_of_gather {parts : List β} {found : List (NodeIndex × α)}
    (h : a.gather results parts = .ok found) : found.map Prod.fst = parts.map a.node := by
  induction parts generalizing found with
  | nil => cases h; rfl
  | cons part parts ih =>
    rw [gather_cons] at h
    cases hpart : results part with
    | error => rw [hpart] at h; cases h
    | ok first =>
      cases hrest : a.gather results parts with
      | error => rw [hpart, hrest] at h; cases h
      | ok rest =>
        rw [hpart, hrest] at h
        cases h
        rw [List.map_cons, List.map_cons, ih hrest]

/-- If every part has a result, the results are found, each under the node of its part. -/
theorem exists_found {parts : List β} (h : ∀ part ∈ parts, ∃ result, results part = .ok result) :
    ∃ found, a.gather results parts = .ok found ∧
      ∀ part ∈ parts, ∀ result, results part = .ok result → (a.node part, result) ∈ found := by
  induction parts with
  | nil => exact ⟨[], rfl, by simp⟩
  | cons part parts ih =>
    obtain ⟨result, hresult⟩ := h part List.mem_cons_self
    obtain ⟨found, hfound, hmem⟩ := ih fun p hp => h p (List.mem_cons_of_mem part hp)
    refine ⟨(a.node part, result) :: found, ?_, ?_⟩
    · rw [gather_cons, hresult, hfound]
      rfl
    · intro p hp r hr
      rcases List.mem_cons.mp hp with rfl | hp
      · rw [hresult] at hr
        cases hr
        exact List.mem_cons_self
      · exact List.mem_cons_of_mem _ (hmem p hp r hr)

/-- What was gathered is found under the nodes of the parts. -/
theorem exists_lookIn {parts : List β} {found : List (NodeIndex × α)}
    (h : a.gather results parts = .ok found) {c : NodeIndex} (hc : c ∈ parts.map a.node) :
    ∃ result, lookIn found (some c) = .ok result := by
  rw [← nodes_of_gather h] at hc
  cases hlookup : found.lookup c with
  | some result => exact ⟨result, by rw [lookIn, Option.bind_some, hlookup]⟩
  | none =>
    obtain ⟨pair, hpair, rfl⟩ := List.mem_map.mp hc
    exact absurd (List.lookup_eq_none_iff.mp hlookup pair hpair) (by simp)

/-- What is found under a node is the result of a part with that node. -/
theorem exists_of_lookIn {parts : List β} {found : List (NodeIndex × α)}
    (hfound : a.gather results parts = .ok found) {c : NodeIndex} {result : α}
    (h : lookIn found (some c) = .ok result) :
    ∃ part ∈ parts, a.node part = c ∧ results part = .ok result := by
  induction parts generalizing found with
  | nil => cases hfound; cases h
  | cons part parts ih =>
    rw [gather_cons] at hfound
    cases hpart : results part with
    | error => rw [hpart] at hfound; cases hfound
    | ok first =>
      cases hrest : a.gather results parts with
      | error => rw [hpart, hrest] at hfound; cases hfound
      | ok rest =>
        rw [hpart, hrest] at hfound
        cases hfound
        by_cases same : c = a.node part
        · rw [same, lookIn, Option.bind_some, List.lookup_cons_self] at h
          cases h
          exact ⟨part, List.mem_cons_self, same.symm, hpart⟩
        · rw [lookIn, Option.bind_some, List.lookup_cons, beq_eq_false_iff_ne.mpr same] at h
          obtain ⟨p, hp, hnode, hresult⟩ := ih hrest h
          exact ⟨p, List.mem_cons_of_mem part hp, hnode, hresult⟩

/-- Results are looked up under their nodes, if these are different. -/
theorem lookIn_of_mem {found : List (NodeIndex × α)} (nodup : (found.map Prod.fst).Nodup)
    {c : NodeIndex} {result : α} (h : (c, result) ∈ found) :
    lookIn found (some c) = .ok result := by
  have looked : found.lookup c = some result := by
    induction found with
    | nil => cases h
    | cons pair found ih =>
      obtain ⟨fresh, nodup⟩ := List.nodup_cons.mp nodup
      rcases List.mem_cons.mp h with rfl | h
      · exact List.lookup_cons_self
      · have other : (c == pair.1) = false :=
          beq_eq_false_iff_ne.mpr fun same => fresh (same ▸ List.mem_map_of_mem h)
        rw [List.lookup_cons, other]
        exact ih nodup h
  rw [lookIn, Option.bind_some, looked]

/-! ## The stack, one task at a time -/

section Tasks

variable {room : Nat} {job : β} {parts : List β} {rest : List (Task β)} {desk : Desk α}

theorem perform_opening (h : a.parts job = .ok parts) :
    a.perform (.opening room job :: rest) desk =
      a.perform (openings room parts ++ .closing job :: rest) desk := by
  rw [perform]
  split
  · next h' => rw [Except.ok.inj (h.symm.trans h')]
  · next h' => cases h.symm.trans h'

theorem perform_opening_error {error : TreeError} (h : a.parts job = .error error) :
    a.perform (.opening room job :: rest) desk = .error error := by
  rw [perform]
  split
  · next h' => cases h.symm.trans h'
  · next h' => rw [Except.error.inj (h.symm.trans h')]

theorem perform_nil : a.perform [] desk = .ok desk := by rw [perform]

theorem perform_closing : a.perform (.closing job :: rest) desk =
    match (a.recipe job).onDesk desk with
    | .ok (result, desk) => a.perform rest (desk.insert (a.node job) result)
    | .error e => .error e :=
  (perform.eq_def ..).trans rfl

/-- The result of a stack is what lies on the desk in the end. -/
theorem run_of_perform {final : Desk α} {result : α}
    (h : a.perform [.opening room job] ∅ = .ok final) (own : final[a.node job]? = some result) :
    a.run room job = .ok result := by
  rw [run, h]
  show (match final[a.node job]? with
    | some result => Except.ok result
    | none => .error (TreeError.unknownNode (a.node job))) = .ok result
  rw [own]

/-- Without room there are no parts to open, if the room is enough. -/
theorem openings_eq (descends : ∀ job, ∀ part ∈ a.below job, rank part < rank job)
    (h : a.parts job = .ok parts) (enough : rank job ≤ room) :
    openings room parts = parts.map (.opening (room - 1)) := by
  cases room with
  | zero =>
    have leaf := Traversal.below_eq_nil descends (Nat.le_zero.mp enough)
    obtain rfl : parts = [] := (below_of_parts h).symm.trans leaf
    rfl
  | succ room => rfl

end Tasks

/-! ## What a stack answers is right -/

/-- What has become of a desk when some parts have been performed.  Of everything at the places of
the parts and below, only results of the parts are left, and those are right. -/
structure Gathered (a : Assembly α β) (results : β → Except TreeError α) (parts : List β)
    (covered : List NodeIndex) (desk after : Desk α) : Prop where
  succeeds : ∀ part ∈ parts, ∃ result, results part = .ok result
  right : ∀ k ∈ covered, ∀ result, after[k]? = some result →
    ∃ part ∈ parts, a.node part = k ∧ results part = .ok result
  kept : ∀ k ∉ covered, after[k]? = desk[k]?

/-- What has become of a desk when a job has been performed: its result lies there, and nothing of
what is below it. -/
structure Settled (a : Assembly α β) (job : β) (result : α) (covered : List NodeIndex)
    (desk after : Desk α) : Prop where
  own : after[a.node job]? = some result
  other : ∀ k ≠ a.node job, after[k]? = if k ∈ covered then none else desk[k]?

/-- The nodes of a job and of everything below it. -/
def span (a : Assembly α β) (room : Nat) (job : β) : List NodeIndex :=
  (Traversal.unfolding a.below room job).map a.node

theorem mem_span_self (a : Assembly α β) (room : Nat) (job : β) : a.node job ∈ a.span room job := by
  cases room <;> exact List.mem_cons_self

/-- A job spans its node and what its parts span. -/
theorem span_eq (descends : ∀ job, ∀ part ∈ a.below job, rank part < rank job) {room : Nat}
    {job : β} {parts : List β} (h : a.parts job = .ok parts) (enough : rank job ≤ room) :
    a.span room job = a.node job :: parts.flatMap (a.span (room - 1)) := by
  cases room with
  | zero =>
    have leaf := Traversal.below_eq_nil descends (Nat.le_zero.mp enough)
    obtain rfl : parts = [] := (below_of_parts h).symm.trans leaf
    rfl
  | succ room =>
    rw [span, Traversal.unfolding, below_of_parts h, List.map_cons, List.map_flatMap]
    rfl

/-- The step of the performance of several parts. -/
theorem Gathered.cons {part : β} {parts : List β} {room : Nat} {result : α}
    {desk between after : Desk α} (hresult : results part = .ok result)
    (first : a.Settled part result (a.span room part) desk between)
    (rest : a.Gathered results parts (parts.flatMap (a.span room)) between after) :
    a.Gathered results (part :: parts) ((part :: parts).flatMap (a.span room)) desk after := by
  refine ⟨?_, ?_, ?_⟩
  · intro p hp
    rcases List.mem_cons.mp hp with rfl | hp
    · exact ⟨result, hresult⟩
    · exact rest.succeeds p hp
  · intro k hk value hvalue
    by_cases later : k ∈ parts.flatMap (a.span room)
    · obtain ⟨p, hp, hnode, hp'⟩ := rest.right k later value hvalue
      exact ⟨p, List.mem_cons_of_mem part hp, hnode, hp'⟩
    · -- below the first part and not touched since, so it is the result of the first part
      rw [List.flatMap_cons, List.mem_append, or_iff_left later] at hk
      rw [rest.kept k later] at hvalue
      by_cases own : k = a.node part
      · rw [own, first.own] at hvalue
        cases hvalue
        exact ⟨part, List.mem_cons_self, own.symm, hresult⟩
      · rw [first.other k own, if_pos hk] at hvalue
        cases hvalue
  · intro k hk
    rw [List.flatMap_cons, List.mem_append, not_or] at hk
    have own : k ≠ a.node part := fun same => hk.1 (same ▸ a.mem_span_self room part)
    rw [rest.kept k hk.2, first.other k own, if_neg hk.1]

/-- Closing a job whose parts have been performed gives the result of the recursion. -/
theorem Gathered.perform_closing (hresults : a.Recursive results) (thorough : a.Thorough) {job : β}
    {parts : List β} (hparts : a.parts job = .ok parts) {covered : List NodeIndex}
    {desk between : Desk α} (t : a.Gathered results parts covered desk between)
    (listed : parts.map a.node ⊆ covered) {rest : List (Task β)} {final : Desk α}
    (run : a.perform (.closing job :: rest) between = .ok final) :
    ∃ result after, results job = .ok result ∧ a.perform rest after = .ok final ∧
      a.Settled job result covered desk after := by
  rw [Assembly.perform_closing] at run
  cases made : (a.recipe job).onDesk between with
  | error => simp [made] at run
  | ok answer =>
    obtain ⟨result, taken⟩ := answer
    simp only [made] at run
    obtain ⟨nodup, present, cleared, looked⟩ := (thorough job parts hparts).of_onDesk made
    obtain ⟨found, hfound, hmem⟩ := exists_found t.succeeds
    have hnodes := nodes_of_gather hfound
    refine ⟨result, _, ?_, run, ⟨?_, ?_⟩⟩
    · rw [hresults job, round_of_parts hparts, hfound]
      refine looked (lookIn found) fun c hc value hvalue => ?_
      obtain ⟨part, hpart, rfl, hresult⟩ := t.right c (listed hc) value hvalue
      exact lookIn_of_mem (hnodes ▸ nodup) (hmem part hpart value hresult)
    · rw [Desk.getElem?_insert, if_pos rfl]
    · intro k own
      rw [Desk.getElem?_insert, if_neg own, cleared]
      by_cases hk : k ∈ parts.map a.node
      · rw [if_pos hk, if_pos (listed hk)]
      · rw [if_neg hk]
        by_cases below : k ∈ covered
        · -- it would be the result of a part, and those have been taken away
          rw [if_pos below, Option.eq_none_iff_forall_ne_some]
          intro value hvalue
          obtain ⟨part, hpart, rfl, -⟩ := t.right k below value hvalue
          exact hk (List.mem_map_of_mem hpart)
        · rw [if_neg below, t.kept k below]

/-- **A job that was performed has the result of the recursion.** -/
theorem perform_opening_ok (hresults : a.Recursive results) (thorough : a.Thorough)
    (descends : ∀ job, ∀ part ∈ a.below job, rank part < rank job) {room : Nat} {job : β}
    (enough : rank job ≤ room) {rest : List (Task β)} {desk final : Desk α}
    (run : a.perform (.opening room job :: rest) desk = .ok final) :
    ∃ result after, results job = .ok result ∧ a.perform rest after = .ok final ∧
      a.Settled job result (a.span room job) desk after := by
  induction hn : rank job using Nat.strongRecOn generalizing room job rest desk with
  | ind n ih =>
    cases hparts : a.parts job with
    | error => rw [perform_opening_error hparts] at run; cases run
    | ok parts =>
      have lower : ∀ part ∈ parts, rank part < n ∧ rank part ≤ room - 1 := by
        intro part hpart
        have := descends job part (below_of_parts hparts ▸ hpart)
        omega
      rw [perform_opening hparts, openings_eq descends hparts enough] at run
      -- the parts one after the other, each on the desk that those before it have left
      have all (ps : List β) (hps : ps ⊆ parts) (desk : Desk α)
          (run : a.perform (ps.map (.opening (room - 1)) ++ .closing job :: rest) desk =
            .ok final) :
          ∃ after, a.perform (.closing job :: rest) after = .ok final ∧
            a.Gathered results ps (ps.flatMap (a.span (room - 1))) desk after := by
        induction ps generalizing desk with
        | nil => exact ⟨desk, run, ⟨by simp, by simp, by simp⟩⟩
        | cons p ps ihps =>
          obtain ⟨rank_lt, rank_le⟩ := lower p (hps List.mem_cons_self)
          obtain ⟨result, between, hresult, run, settled⟩ := ih _ rank_lt rank_le run rfl
          obtain ⟨after, run, t⟩ :=
            ihps (fun q hq => hps (List.mem_cons_of_mem p hq)) between run
          exact ⟨after, run, .cons hresult settled t⟩
      obtain ⟨between, run, t⟩ := all parts (List.Subset.refl _) desk run
      have listed : parts.map a.node ⊆ parts.flatMap (a.span (room - 1)) := by
        intro k hk
        obtain ⟨part, hpart, rfl⟩ := List.mem_map.mp hk
        exact List.mem_flatMap.mpr ⟨part, hpart, a.mem_span_self _ part⟩
      obtain ⟨result, after, hresult, run, settled⟩ :=
        t.perform_closing hresults thorough hparts listed run
      refine ⟨result, after, hresult, run, settled.own, fun k own => ?_⟩
      rw [settled.other k own, span_eq descends hparts enough]
      simp only [List.mem_cons, own, false_or]

/-- **What a stack answers is what recursion gives.** -/
theorem Recursive.of_run (hresults : a.Recursive results) (thorough : a.Thorough)
    (descends : ∀ job, ∀ part ∈ a.below job, rank part < rank job) {room : Nat} {job : β}
    (enough : rank job ≤ room) {result : α} (run : a.run room job = .ok result) :
    results job = .ok result := by
  cases performed : a.perform [.opening room job] ∅ with
  | error => rw [Assembly.run, performed] at run; cases run
  | ok final =>
    obtain ⟨result', after, hresult, empty, settled⟩ :=
      perform_opening_ok hresults thorough descends enough performed
    rw [perform_nil] at empty
    obtain rfl := Except.ok.inj empty
    rw [hresult, ← run, run_of_perform performed settled.own]

/-! ## Trees -/

variable (a results) in
/-- Performing a job is to put the result of the recursion on the desk and to leave alone what is
not below the job, or to fail as the recursion does. -/
def Performs (room : Nat) (job : β) : Prop :=
  ∀ (rest : List (Task β)) (desk : Desk α),
    match results job with
    | .error error => a.perform (.opening room job :: rest) desk = .error error
    | .ok result => ∃ after, a.perform (.opening room job :: rest) desk = a.perform rest after ∧
        after[a.node job]? = some result ∧ ∀ k ∉ a.span room job, after[k]? = desk[k]?

variable (a results) in
/-- The same for some jobs one after the other. -/
def PerformsAll (room : Nat) (jobs : List β) : Prop :=
  ∀ (rest : List (Task β)) (desk : Desk α),
    match a.gather results jobs with
    | .error error => a.perform (jobs.map (.opening room) ++ rest) desk = .error error
    | .ok found => ∃ after,
        a.perform (jobs.map (.opening room) ++ rest) desk = a.perform rest after ∧
        found.map Prod.fst = jobs.map a.node ∧
        (∀ pair ∈ found, after[pair.1]? = some pair.2) ∧
        ∀ k ∉ jobs.flatMap (a.span room), after[k]? = desk[k]?

/-- Jobs can be performed one after the other if what is below one of them is not below another. -/
theorem Performs.all {room : Nat} {jobs : List β} (h : ∀ job ∈ jobs, a.Performs results room job)
    (apart : (jobs.flatMap (a.span room)).Nodup) : a.PerformsAll results room jobs := by
  induction jobs with
  | nil => exact fun rest desk => ⟨desk, rfl, rfl, by simp, by simp⟩
  | cons job jobs ih =>
    intro rest desk
    rw [List.flatMap_cons, List.nodup_append'] at apart
    obtain ⟨-, others, disjoint⟩ := apart
    have first := h job List.mem_cons_self (jobs.map (.opening room) ++ rest) desk
    rw [gather_cons, List.map_cons, List.cons_append]
    cases hresult : results job with
    | error error =>
      simp only [hresult] at first
      exact first
    | ok result =>
      simp only [hresult] at first
      obtain ⟨between, run, own, kept⟩ := first
      have later := ih (fun p hp => h p (List.mem_cons_of_mem job hp)) others rest between
      rw [run]
      cases hfound : a.gather results jobs with
      | error error =>
        simp only [hfound] at later
        exact later
      | ok found =>
        simp only [hfound] at later
        obtain ⟨after, run, nodes, lies, kept'⟩ := later
        refine ⟨after, run, by simp [nodes], ?_, ?_⟩
        · intro pair hpair
          rcases List.mem_cons.mp hpair with rfl | hpair
          · rw [kept' _ (disjoint (a.mem_span_self _ job)), own]
          · exact lies pair hpair
        · intro k hk
          rw [List.flatMap_cons, List.mem_append, not_or] at hk
          rw [kept' k hk.2, kept k hk.1]

/-- When the parts of a job have been performed, closing the job does what the recursion says. -/
theorem PerformsAll.close (hresults : a.Recursive results) (thorough : a.Thorough) {room : Nat}
    {job : β} {parts : List β} (hparts : a.parts job = .ok parts)
    (h : a.PerformsAll results room parts) (apart : (parts.flatMap (a.span room)).Nodup)
    (rest : List (Task β)) (desk : Desk α) :
    match results job with
    | .error error =>
      a.perform (parts.map (.opening room) ++ .closing job :: rest) desk = .error error
    | .ok result => ∃ after,
        a.perform (parts.map (.opening room) ++ .closing job :: rest) desk =
          a.perform rest after ∧
        after[a.node job]? = some result ∧
        ∀ k ∉ a.node job :: parts.flatMap (a.span room), after[k]? = desk[k]? := by
  have gathered := h (.closing job :: rest) desk
  rw [hresults job, round_of_parts hparts]
  cases hfound : a.gather results parts with
  | error error =>
    simp only [hfound] at gathered
    exact gathered
  | ok found =>
    simp only [hfound] at gathered
    obtain ⟨between, run, nodes, lies, kept⟩ := gathered
    have different : (parts.map a.node).Nodup := by
      refine List.pairwise_map.mpr ((List.nodup_flatMap.mp apart).2.imp ?_)
      intro p q disjoint same
      exact disjoint (a.mem_span_self _ p) (same ▸ a.mem_span_self _ q)
    -- what the recipe takes from the desk is what was gathered
    have followed := (thorough job parts hparts).onDesk_eq different between
      (lookIn found) rfl fun c hc => by
        obtain ⟨pair, hpair, rfl⟩ := List.mem_map.mp (nodes ▸ hc)
        exact ⟨pair.2, lies pair hpair, lookIn_of_mem (nodes ▸ different) hpair⟩
    rw [run, perform_closing]
    change match (a.recipe job).withParts (lookIn found) with
      | .error error => _
      | .ok result => _
    cases made : (a.recipe job).withParts (lookIn found) with
    | error error =>
      simp only [made] at followed ⊢
      rw [followed]
    | ok result =>
      simp only [made] at followed ⊢
      obtain ⟨after, followed, cleared⟩ := followed
      rw [followed]
      refine ⟨_, rfl, by rw [Desk.getElem?_insert, if_pos rfl], fun k hk => ?_⟩
      rw [List.mem_cons, not_or] at hk
      have unlisted : k ∉ parts.map a.node := fun hmem => by
        obtain ⟨part, hpart, rfl⟩ := List.mem_map.mp hmem
        exact hk.2 (List.mem_flatMap.mpr ⟨part, hpart, a.mem_span_self _ part⟩)
      rw [Desk.getElem?_insert, if_neg hk.1, cleared, if_neg unlisted, kept k hk.2]

/-- **Where every node stands in one place, performing a job is to put the result of the recursion
on the desk, or to fail as the recursion does.** -/
theorem Recursive.performs (hresults : a.Recursive results) (thorough : a.Thorough)
    (descends : ∀ job, ∀ part ∈ a.below job, rank part < rank job) {room : Nat} {job : β}
    (enough : rank job ≤ room) (nodup : (a.span room job).Nodup) :
    a.Performs results room job := by
  induction hn : rank job using Nat.strongRecOn generalizing room job with
  | ind n ih =>
    intro rest desk
    cases hparts : a.parts job with
    | error error =>
      rw [hresults job, round, hparts]
      exact perform_opening_error hparts
    | ok parts =>
      rw [span_eq descends hparts enough, List.nodup_cons] at nodup
      rw [span_eq descends hparts enough, perform_opening hparts,
        openings_eq descends hparts enough]
      have all : a.PerformsAll results (room - 1) parts := by
        refine Performs.all (fun part hpart => ?_) nodup.2
        have lower := descends job part (below_of_parts hparts ▸ hpart)
        exact ih _ (hn ▸ lower) (by omega) ((List.nodup_flatMap.mp nodup.2).1 part hpart) rfl
      exact all.close hresults thorough hparts nodup.2 rest desk

/-- **Where every node stands in one place, a stack answers what recursion gives**, errors
included. -/
theorem Recursive.run_eq (hresults : a.Recursive results) (thorough : a.Thorough)
    (descends : ∀ job, ∀ part ∈ a.below job, rank part < rank job) {room : Nat} {job : β}
    (enough : rank job ≤ room) (nodup : (a.span room job).Nodup) :
    a.run room job = results job := by
  have performed := hresults.performs thorough descends enough nodup [] ∅
  cases hresult : results job with
  | error error =>
    simp only [hresult] at performed
    rw [Assembly.run, performed]
    rfl
  | ok result =>
    simp only [hresult] at performed
    obtain ⟨after, run, own, -⟩ := performed
    exact run_of_perform (run.trans perform_nil) own

end Assembly

end SyntaxForest
