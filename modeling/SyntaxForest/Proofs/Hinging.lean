import SyntaxForest.Proofs.Acyclic
import SyntaxForest.Proofs.Asking

/-!
# When recursion succeeds

A recipe may fail for a reason of its own, such as a slot that is empty, or because a part that it
asks for is not there.  `Recipe.Hinges` says what the reason of its own is, and that nothing else
makes the recipe fail: it ends with a result if the condition holds, whatever the parts are that it
gets, and fails if the condition does not hold.

Conditions add up along the recipe (`Hinges.bind`), and along the tree: the recursion over a forest
has a result for a node exactly if the conditions of all nodes are met whose results go into it
(`Recursive.succeeds_iff`).  The order in which a recipe looks at its slots does not matter to
either.
-/

namespace SyntaxForest

namespace Recipe

variable {α β γ : Type} {p q : Prop}

/-- With whatever parts, the recipe ends with a result if the condition holds, and it fails if
not. -/
def Hinges (p : Prop) : Recipe α β → Prop
  | .done _ => p
  | .fail _ => ¬ p
  | .need none _ => ¬ p
  | .need (some _) next => ∀ part, (next part).Hinges p

/-! ## Recipes from recipes -/

theorem Hinges.pure (result : β) : Hinges True (pure result : Recipe α β) := trivial

theorem Hinges.congr {recipe : Recipe α β} (h : Hinges p recipe) (same : p ↔ q) :
    Hinges q recipe :=
  propext same ▸ h

/-- **One recipe and then another hinge on both conditions.** -/
theorem Hinges.bind {recipe : Recipe α β} {next : β → Recipe α γ} (h : Hinges p recipe)
    (hnext : ∀ result, Hinges q (next result)) : Hinges (p ∧ q) (recipe >>= next) := by
  show Hinges (p ∧ q) (recipe.bind next)
  induction recipe with
  | done result =>
    have holds : p := h
    exact (hnext result).congr (and_iff_right holds).symm
  | fail error => exact fun both => h both.1
  | need child more ih =>
    cases child with
    | none => exact fun both => h both.1
    | some child => exact fun part => ih part (h part)

/-- What is done with the result of a recipe makes no difference if it cannot fail. -/
theorem Hinges.bind_pure {recipe : Recipe α β} {next : β → Recipe α γ} (h : Hinges p recipe)
    (hnext : ∀ result, Hinges True (next result)) : Hinges p (recipe >>= next) :=
  (h.bind hnext).congr (and_iff_left trivial)

/-- A recipe that only computes before it goes on. -/
theorem Hinges.pure_bind {result : β} {next : β → Recipe α γ} (h : Hinges p (next result)) :
    Hinges p ((Pure.pure result : Recipe α β) >>= next) := h

/-- A part that is taken only where there is one. -/
theorem Hinges.optional {child : Link} {absent present : Recipe α β} (habsent : Hinges p absent)
    (hpresent : Hinges (child.isSome ∧ p) present) :
    Hinges p (if child.isNone then absent else present) := by
  cases child with
  | none => exact habsent
  | some child => exact hpresent.congr (and_iff_right rfl)

theorem hinges_take (child : Link) : Hinges (child.isSome) (take child : Recipe α α) := by
  cases child with
  | none => exact Bool.false_ne_true
  | some child => exact fun _ => rfl

theorem hinges_takeRequired (kind : Kind) (slot : ChildSlot) (child : Link) :
    Hinges (child.isSome) (takeRequired kind slot child : Recipe α α) := by
  cases child with
  | none => exact Bool.false_ne_true
  | some child => exact fun _ => rfl

theorem hinges_require (kind : Kind) (slot : ChildSlot) (child : Link) :
    Hinges (child.isSome) (require kind slot child : Recipe α Unit) := by
  cases child with
  | none => exact Bool.false_ne_true
  | some child => exact rfl

/-- To ask for several children needs that none of the links is empty. -/
theorem hinges_takeAll (children : List Link) :
    Hinges (none ∉ children) (takeAll children : Recipe α (List α)) := by
  induction children with
  | nil => exact (Hinges.pure []).congr (iff_of_true trivial List.not_mem_nil)
  | cons child rest ih =>
    refine ((hinges_take child).bind fun part =>
      ih.bind_pure fun parts => Hinges.pure (part :: parts)).congr ?_
    rw [List.mem_cons, not_or, ← ne_eq, ne_comm, Option.ne_none_iff_isSome]

/-! ## Following a recipe -/

/-- **A recipe that finds whatever it uses succeeds exactly if its condition holds.** -/
theorem Hinges.succeeds_iff {recipe : Recipe α β} {children : List NodeIndex}
    (h : Hinges p recipe) (uses : Uses children recipe) {look : Link → Except TreeError α}
    (absent : ∀ part, look none ≠ .ok part)
    (found : ∀ c ∈ children, ∃ part, look (some c) = .ok part) :
    (∃ result, recipe.withParts look = .ok result) ↔ p := by
  induction uses with
  | done result => exact iff_of_true ⟨result, rfl⟩ h
  | fail children error => exact iff_of_false nofun h
  | absent children next =>
    refine iff_of_false ?_ h
    rintro ⟨result, run⟩
    cases part : look none with
    | ok part' => exact absent part' part
    | error => simp [withParts, part] at run
  | need order _ ih =>
    obtain ⟨part, asked⟩ := found _ (order.mem_iff.mpr List.mem_cons_self)
    rw [withParts, asked]
    exact ih part (h part) fun c hc => found c (order.mem_iff.mpr (List.mem_cons_of_mem _ hc))

end Recipe

namespace Assembly

variable {α β : Type} {a : Assembly α β} {results : β → Except TreeError α}

/-! ## One round of recursion -/

/-- Parts have results all together exactly if each has one. -/
theorem gather_succeeds_iff {parts : List β} : (∃ found, a.gather results parts = .ok found) ↔
    ∀ part ∈ parts, ∃ result, results part = .ok result := by
  constructor
  · rintro ⟨found, h⟩
    induction parts generalizing found with
    | nil => exact nofun
    | cons part parts ih =>
      rw [gather_cons] at h
      cases hpart : results part with
      | error => rw [hpart] at h; cases h
      | ok first =>
        cases hrest : a.gather results parts with
        | error => rw [hpart, hrest] at h; cases h
        | ok rest => exact List.forall_mem_cons.mpr ⟨⟨first, hpart⟩, ih rest hrest⟩
  · intro h
    obtain ⟨found, hfound, -⟩ := exists_found h
    exact ⟨found, hfound⟩

/-- A job has a result exactly if its parts have one and the condition of its recipe holds. -/
theorem round_succeeds_iff (thorough : a.Thorough) {job : β} {parts : List β} {p : Prop}
    (hparts : a.parts job = .ok parts) (hinges : (a.recipe job).Hinges p) :
    (∃ result, a.round results job = .ok result) ↔
      (∀ part ∈ parts, ∃ result, results part = .ok result) ∧ p := by
  rw [round_of_parts hparts, ← gather_succeeds_iff]
  cases hfound : a.gather results parts with
  | error => exact iff_of_false nofun fun both => nomatch both.1
  | ok found =>
    have own : (∃ result, (a.recipe job).withParts (lookIn found) = .ok result) ↔ p :=
      hinges.succeeds_iff (thorough job parts hparts) nofun fun c hc => exists_lookIn hfound hc
    exact own.trans (and_iff_right ⟨found, rfl⟩).symm

/-! ## All of it -/

/-- **Recursion over a forest has a result for a node exactly if the condition of every node holds
whose result goes into it.**  `next` lists the nodes of the parts of a node. -/
theorem Recursive.succeeds_iff {f : Forest} (hf : f.Linked) (hresults : a.Recursive results)
    (follows : a.Follows f) (thorough : a.Thorough) {next : NodeIndex → List NodeIndex}
    {condition : NodeIndex → Prop}
    (hparts : ∀ job, f.contains (some (a.node job)) →
      ∃ parts, a.parts job = .ok parts ∧ parts.map a.node = next (a.node job))
    (hinges : ∀ job, f.contains (some (a.node job)) →
      (a.recipe job).Hinges (condition (a.node job)))
    {job : β} (hjob : f.contains (some (a.node job))) :
    (∃ result, results job = .ok result) ↔
      ∀ y, Relation.ReflTransGen (fun x y => y ∈ next x) (a.node job) y → condition y := by
  induction hn : f.rank (a.node job) using Nat.strongRecOn generalizing job with
  | ind n ih =>
    obtain ⟨parts, hpart, nodes⟩ := hparts job hjob
    have below {part : β} (hmem : part ∈ parts) : a.node part ∈ f.below (a.node job) :=
      (follows job).subset (below_of_parts hpart ▸ List.mem_map_of_mem hmem)
    have step {part : β} (hmem : part ∈ parts) :=
      ih (f.rank (a.node part)) (hn ▸ hf.rank_lt _ _ (below hmem))
        (hf.contains_of_mem (below hmem)) rfl
    rw [hresults job, round_succeeds_iff thorough hpart (hinges job hjob)]
    constructor
    · rintro ⟨parts, own⟩ y path
      rcases Relation.ReflTransGen.cases_head path with rfl | ⟨x, hx, path⟩
      · exact own
      · rw [← nodes] at hx
        obtain ⟨part, hmem, rfl⟩ := List.mem_map.mp hx
        exact (step hmem).mp (parts part hmem) y path
    · intro all
      refine ⟨fun part hmem => (step hmem).mpr fun y path => all y (.head ?_ path), all _ .refl⟩
      exact nodes ▸ List.mem_map_of_mem hmem

/-- **What is answered for a link**: a result exactly if the link names a node, the tree of the node
is not too high, and the conditions hold. -/
theorem Follows.succeeds_iff {f : Forest} (follows : a.Follows f) (thorough : a.Thorough)
    (hf : f.Linked) (job : NodeIndex → β) (next : NodeIndex → List NodeIndex)
    (condition : NodeIndex → Prop) (hjob : ∀ x, a.node (job x) = x)
    (refused : ∀ job, f.contains (some (a.node job)) = false → ∃ err, a.parts job = .error err)
    (hparts : ∀ job, f.contains (some (a.node job)) →
      ∃ parts, a.parts job = .ok parts ∧ parts.map a.node = next (a.node job))
    (hinges : ∀ job, f.contains (some (a.node job)) →
      (a.recipe job).Hinges (condition (a.node job)))
    (x : Link) :
    (∃ result, (do f.checkHeight x; resultFor (a.run f.size) job x) = .ok result) ↔
      f.contains x ∧ f.height x ≤ Forest.maxHeight ∧
        ∀ root, x = some root →
          ∀ y, Relation.ReflTransGen (fun x y => y ∈ next x) root y → condition y := by
  by_cases height : f.height x ≤ Forest.maxHeight
  · obtain ⟨results, hresults, -⟩ := follows.existsUnique_recursive hf.acyclic
    rw [follows.resultFor_eq thorough hf hresults height]
    cases x with
    | none =>
      refine iff_of_false ?_ fun both => Bool.false_ne_true both.1
      rintro ⟨result, run⟩
      cases run
    | some x =>
      cases hx : f.contains (some x) with
      | true =>
        have node := hjob x
        rw [← node] at hx
        rw [resultFor, hresults.succeeds_iff hf follows thorough hparts hinges hx, node]
        simp [height]
      | false =>
        obtain ⟨err, hparts⟩ := refused (job x) ((hjob x).symm ▸ hx)
        refine iff_of_false ?_ fun both => Bool.false_ne_true both.1
        rw [resultFor, hresults, round, hparts]
        rintro ⟨result, run⟩
        cases run
  · refine iff_of_false ?_ fun both => height both.2.1
    rw [Forest.checkHeight, if_pos (Nat.lt_of_not_le height)]
    rintro ⟨result, run⟩
    cases run

end Assembly

end SyntaxForest
