import SyntaxForest.Proofs.Recording

/-!
# Recipes under other names

The recipe for a record looks at the children of a node only to ask for their parts.  So where every
link is renamed, it asks for the renamed children and is otherwise the same (`Recipe.rename`).

`Assembly.Mirrors` says that a job is, in this way, one of another assembly, and
`Recursive.eq_of_mirrors` that then both have the same result.  No error of a recipe names a child
that is missing from the results, because a recipe only asks for children that have one; that is why
results are the same and not only alike.
-/

namespace SyntaxForest

namespace Recipe

variable {α β γ : Type} (name : NodeIndex → NodeIndex)

/-- The recipe with every child renamed. -/
def rename : Recipe α β → Recipe α β
  | .done result => .done result
  | .fail error => .fail error
  | .need child next => .need (child.map name) fun part => (next part).rename

@[simp] theorem rename_pure (result : β) :
    (pure result : Recipe α β).rename name = pure result := rfl

@[simp] theorem rename_take (child : Link) :
    (take child : Recipe α α).rename name = take (child.map name) := rfl

/-- A renamed recipe goes on as the recipe does. -/
theorem rename_bind (recipe : Recipe α β) (next : β → Recipe α γ) :
    (recipe >>= next).rename name =
      recipe.rename name >>= fun result => (next result).rename name := by
  induction recipe with
  | done | fail => rfl
  | need child more ih =>
    show Recipe.need _ _ = Recipe.need _ _
    exact congrArg (Recipe.need _) (funext ih)

@[simp] theorem rename_takeRequired (kind : Kind) (slot : ChildSlot) (child : Link) :
    (takeRequired kind slot child : Recipe α α).rename name =
      takeRequired kind slot (child.map name) := by
  cases child <;> rfl

/-- The children of a list are renamed one by one. -/
@[simp] theorem rename_takeAll (children : List Link) :
    (takeAll children : Recipe α (List α)).rename name = takeAll (children.map (·.map name)) := by
  induction children with
  | nil => rfl
  | cons child rest ih =>
    simp only [takeAll, rename_bind, ih, rename_take, rename_pure, List.map_cons]

/-- A renamed recipe asks for what the renamed children have. -/
theorem withParts_rename (recipe : Recipe α β) (look : Link → Except TreeError α) :
    (recipe.rename name).withParts look = recipe.withParts fun child => look (child.map name) := by
  induction recipe with
  | done | fail => rfl
  | need child next ih =>
    rw [rename, withParts, withParts]
    cases look (child.map name) with
    | error => rfl
    | ok part => exact ih part

end Recipe

/-! ## Assemblies -/

namespace Assembly

variable {α β γ : Type} {a : Assembly α β} {a' : Assembly α γ}

/-- A job is the same for another assembly, under another name. -/
structure Mirrors (a : Assembly α β) (a' : Assembly α γ) (name : NodeIndex → NodeIndex)
    (mirror : β → γ) (job : β) : Prop where
  parts : ∃ parts, a.parts job = .ok parts ∧ a'.parts (mirror job) = .ok (parts.map mirror)
  node : ∀ part ∈ a.below job, a'.node (mirror part) = name (a.node part)
  inj : ∀ part ∈ a.below job, ∀ other ∈ a.below job,
    name (a.node part) = name (a.node other) → a.node part = a.node other
  recipe : a'.recipe (mirror job) = (a.recipe job).rename name

variable {name : NodeIndex → NodeIndex} {mirror : β → γ}
  {results : β → Except TreeError α} {results' : γ → Except TreeError α}

/-- The same results are gathered, under other names. -/
theorem gather_mirror {jobs : List β}
    (node : ∀ job ∈ jobs, a'.node (mirror job) = name (a.node job))
    (same : ∀ job ∈ jobs, results' (mirror job) = results job) :
    a'.gather results' (jobs.map mirror) =
      (a.gather results jobs).map fun found => found.map fun pair => (name pair.1, pair.2) := by
  induction jobs with
  | nil => rfl
  | cons job jobs ih =>
    rw [List.map_cons, gather_cons, gather_cons, same job List.mem_cons_self,
      ih (fun j hj => node j (List.mem_cons_of_mem job hj))
        (fun j hj => same j (List.mem_cons_of_mem job hj)), node job List.mem_cons_self]
    cases results job with
    | error => rfl
    | ok result => cases a.gather results jobs <;> rfl

/-- What was gathered under another name is found under that name. -/
theorem lookIn_rename {found : List (NodeIndex × α)} {c : NodeIndex}
    (inj : ∀ other ∈ found.map Prod.fst, name other = name c → other = c)
    (h : c ∈ found.map Prod.fst) :
    lookIn (found.map fun pair => (name pair.1, pair.2)) (some (name c)) =
      lookIn found (some c) := by
  induction found with
  | nil => cases h
  | cons pair found ih =>
    rw [List.map_cons, lookIn, lookIn, Option.bind_some, Option.bind_some, List.lookup_cons,
      List.lookup_cons]
    by_cases same : c = pair.1
    · rw [same, beq_self_eq_true, beq_self_eq_true]
    · have other : name c ≠ name pair.1 := fun h => same (inj _ List.mem_cons_self h.symm).symm
      rw [beq_eq_false_iff_ne.mpr same, beq_eq_false_iff_ne.mpr other]
      refine ih (fun y hy => inj y (List.mem_cons_of_mem _ hy)) ?_
      exact (List.mem_cons.mp h).resolve_left same

/-- **Jobs that are the same have the same results.** -/
theorem Recursive.eq_of_mirrors {rank : β → Nat} (h : a.Recursive results)
    (h' : a'.Recursive results') (thorough : a.Thorough)
    (descends : ∀ job, ∀ part ∈ a.below job, rank part < rank job) {tree : β → Prop}
    (closed : ∀ job, tree job → ∀ part ∈ a.below job, tree part)
    (mirrors : ∀ job, tree job → a.Mirrors a' name mirror job) {job : β} (hjob : tree job) :
    results' (mirror job) = results job := by
  induction hn : rank job using Nat.strongRecOn generalizing job with
  | ind n ih =>
    obtain ⟨⟨parts, hparts, hparts'⟩, node, inj, recipe⟩ := mirrors job hjob
    rw [below_of_parts hparts] at node inj
    have same : ∀ part ∈ parts, results' (mirror part) = results part := by
      intro part hpart
      rw [← below_of_parts hparts] at hpart
      exact ih _ (hn ▸ descends job part hpart) (closed job hjob part hpart) rfl
    rw [h job, h' (mirror job), round_of_parts hparts, round_of_parts hparts',
      gather_mirror node same, recipe]
    cases hfound : a.gather results parts with
    | error => rfl
    | ok found =>
      show ((a.recipe job).rename name).withParts _ = (a.recipe job).withParts _
      rw [Recipe.withParts_rename]
      refine (thorough job parts hparts).withParts_congr ⟨_, rfl, rfl⟩ fun c hc => ?_
      have nodes := nodes_of_gather hfound
      refine lookIn_rename ?_ (nodes ▸ hc)
      rw [nodes]
      intro other hother same
      obtain ⟨part, hpart, rfl⟩ := List.mem_map.mp hother
      obtain ⟨part', hpart', rfl⟩ := List.mem_map.mp hc
      exact inj part hpart part' hpart' same

end Assembly

/-! ## Recipes for records -/

namespace Interchange

open Recipe

variable {name : NodeIndex → NodeIndex}

theorem optional_rename (x : Link) : optional (x.map name) = (optional x).rename name := by
  cases x <;> rfl

theorem array_rename (xs : List Link) :
    array (xs.map (·.map name)) = (array xs).rename name := by
  simp only [array, rename_bind, rename_takeAll, rename_pure]

/-- **The record of a node whose children are renamed is made of theirs in the same way.** -/
theorem ofContents_rename (c : Contents) :
    ofContents (c.mapLinks (·.map name)) = (ofContents c).rename name := by
  unfold Contents.mapLinks Contents.rewire ofContents
  cases c with
  | numberLiteral c => cases h : c.token <;> simp only [h] <;> rfl
  | tryStatement c =>
    cases h : c.catchClauses with
    | nil => simp only [h, List.map_nil]; rfl
    | cons first rest =>
      simp only [h, List.map_cons, Contents.kind, rename_bind, rename_pure, rename_takeRequired,
        rename_take, optional_rename]
  | _ =>
    simp only [Contents.kind, rename_bind, rename_pure, rename_takeRequired, array_rename,
      optional_rename]

theorem ofBare_rename (kind : Kind) : ofBare kind = (ofBare kind).rename name := by
  cases kind <;> rfl

/-- Where the links are renamed, those of the embedded children are. -/
theorem embedded_rename (c : Contents) :
    embedded (c.mapLinks (·.map name)) = (embedded c).map (·.map name) := by
  cases c with
  | tryStatement c =>
    obtain ⟨tryBlock, catchClauses, finallyBlock, finallyPosition⟩ := c
    cases catchClauses <;> rfl
  | _ => rfl

end Interchange

end SyntaxForest
