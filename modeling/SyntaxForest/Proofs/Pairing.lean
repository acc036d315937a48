import SyntaxForest.Proofs.Recursion

/-!
# Assemblies side by side

Two assemblies that take the same jobs apart in the same way, and put the results together from
related parts to related results, answer related results.  `Recipe.Paired` is what this demands of
two recipes: they ask for the parts of the same children in the same order, and whatever related
parts they get, they end with related results or with the same error.

The induction is on the stack (`Assembly.paired_perform`); what it carries is that on the two desks
related results lie at the same places.  Nothing is asked of the shape of the jobs.
-/

namespace SyntaxForest

variable {α β γ : Type}

/-- Two answers are related results or the same error. -/
inductive Answers (related : α → α → Prop) : Except TreeError α → Except TreeError α → Prop where
  | ok {a a' : α} (h : related a a') : Answers related (.ok a) (.ok a')
  | error (e : TreeError) : Answers related (.error e) (.error e)

namespace Recipe

/-- Two recipes ask for the same children, and for related parts end with related results. -/
inductive Paired (parts : α → α → Prop) (results : β → β → Prop) :
    Recipe α β → Recipe α β → Prop where
  | done {b b' : β} (h : results b b') : Paired parts results (.done b) (.done b')
  | fail (e : TreeError) : Paired parts results (.fail e) (.fail e)
  | need (child : Link) {next next' : α → Recipe α β}
    (h : ∀ a a', parts a a' → Paired parts results (next a) (next' a')) :
    Paired parts results (.need child next) (.need child next')

variable {parts : α → α → Prop} {results : β → β → Prop} {final : γ → γ → Prop}

theorem Paired.bind {recipe recipe' : Recipe α β} {next next' : β → Recipe α γ}
    (h : Paired parts results recipe recipe')
    (hnext : ∀ b b', results b b' → Paired parts final (next b) (next' b')) :
    Paired parts final (recipe >>= next) (recipe' >>= next') := by
  induction h with
  | done h => exact hnext _ _ h
  | fail e => exact .fail e
  | need child _ ih => exact .need child ih

theorem paired_take (child : Link) : Paired parts parts (take child) (take child) :=
  .need child fun _ _ h => .done h

theorem paired_takeRequired (kind : Kind) (slot : ChildSlot) (child : Link) :
    Paired parts parts (takeRequired kind slot child) (takeRequired kind slot child) := by
  unfold takeRequired
  split
  · exact .fail _
  · exact paired_take child

theorem paired_takeAll (children : List Link) :
    Paired parts (List.Forall₂ parts) (takeAll children) (takeAll children) := by
  induction children with
  | nil => exact .done .nil
  | cons child rest ih =>
    refine (paired_take child).bind fun _ _ first => ?_
    exact ih.bind fun _ _ others => .done (.cons first others)

end Recipe

/-- On two desks, related results lie at the same places. -/
def Desk.Related (related : α → α → Prop) (desk desk' : Desk α) : Prop :=
  ∀ k : NodeIndex, Option.Rel related desk[k]? desk'[k]?

variable {related : α → α → Prop} {results : β → β → Prop} {desk desk' : Desk α}

theorem Desk.Related.erase (h : Desk.Related related desk desk') (x : NodeIndex) :
    Desk.Related related (desk.erase x) (desk'.erase x) := by
  intro k
  rw [Desk.getElem?_erase, Desk.getElem?_erase]
  split
  · exact .none
  · exact h k

theorem Desk.Related.insert (h : Desk.Related related desk desk') (x : NodeIndex) {a a' : α}
    (ha : related a a') : Desk.Related related (desk.insert x a) (desk'.insert x a') := by
  intro k
  rw [Desk.getElem?_insert, Desk.getElem?_insert]
  split
  · exact .some ha
  · exact h k

/-- Paired recipes take the same parts from related desks. -/
theorem Recipe.Paired.onDesk {recipe recipe' : Recipe α β}
    (h : Paired related results recipe recipe') (hdesk : Desk.Related related desk desk') :
    Answers (fun found found' => results found.1 found'.1 ∧ Desk.Related related found.2 found'.2)
      (recipe.onDesk desk) (recipe'.onDesk desk') := by
  induction h generalizing desk desk' with
  | done h => exact .ok ⟨h, hdesk⟩
  | fail e => exact .error e
  | need child _ ih =>
    cases child with
    | none => exact .error _
    | some child =>
      have lie := hdesk child
      rw [Recipe.onDesk, Recipe.onDesk]
      cases hown : desk[child]? <;> cases hother : desk'[child]? <;> rw [hown, hother] at lie <;>
        cases lie
      · exact .error _
      · next part => exact ih _ _ part (hdesk.erase child)

namespace Assembly

variable {a a' : Assembly α β}

/-- Two assemblies take jobs apart alike and have paired recipes. -/
structure Paired (related : α → α → Prop) (a a' : Assembly α β) : Prop where
  node : a'.node = a.node
  parts : a'.parts = a.parts
  recipe : ∀ job, Recipe.Paired related related (a.recipe job) (a'.recipe job)

/-- **From related desks, a stack of tasks leads to related desks.** -/
theorem paired_perform (h : Paired related a a') (tasks : List (Task β))
    (hdesk : Desk.Related related desk desk') :
    Answers (Desk.Related related) (a.perform tasks desk) (a'.perform tasks desk') := by
  fun_induction perform a tasks desk generalizing desk' with
  | case1 desk =>
    rw [perform_nil]
    exact .ok hdesk
  | case2 desk job rest result left taken ih =>
    have found := (h.recipe job).onDesk hdesk
    rw [taken] at found
    rw [perform_closing]
    cases hother : (a'.recipe job).onDesk desk' <;> rw [hother] at found <;> cases found
    next found => exact ih (h.node ▸ found.2.insert (a.node job) found.1)
  | case3 desk job rest e failed =>
    have found := (h.recipe job).onDesk hdesk
    rw [failed] at found
    rw [perform_closing]
    cases hother : (a'.recipe job).onDesk desk' <;> rw [hother] at found <;> cases found
    exact .error e
  | case4 desk room job rest jobs asked ih =>
    rw [perform_opening (a := a') (h.parts ▸ asked)]
    exact ih hdesk
  | case5 desk room job rest e asked =>
    rw [perform_opening_error (a := a') (h.parts ▸ asked)]
    exact .error e

/-- **Paired assemblies answer related results.** -/
theorem Paired.run (h : Paired related a a') (room : Nat) (job : β) :
    Answers related (a.run room job) (a'.run room job) := by
  have clear (k : NodeIndex) : (∅ : Desk α)[k]? = none := Std.TreeMap.getElem?_emptyc
  have performed : Answers (Desk.Related related) (a.perform [.opening room job] ∅)
      (a'.perform [.opening room job] ∅) :=
    paired_perform h _ fun k => by rw [clear]; exact .none
  unfold Assembly.run
  rw [h.node]
  cases hown : a.perform [.opening room job] ∅ <;>
    cases hother : a'.perform [.opening room job] ∅ <;> rw [hown, hother] at performed <;>
    cases performed
  · exact .error _
  · next final final' desks =>
    have lie := desks (a.node job)
    simp only [bind, Except.bind]
    cases hleft : final[a.node job]? <;> cases hright : final'[a.node job]? <;>
      rw [hleft, hright] at lie <;> cases lie
    · exact .error _
    · next h => exact .ok h

end Assembly

end SyntaxForest
