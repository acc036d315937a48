import Mathlib.Data.List.Nodup
import Std.Data.TreeMap.Lemmas
import SyntaxForest.Assembly

/-!
# What recipes ask for

A recipe may ask for the finished parts of children in any order, and it may fail at any point.
`Recipe.Uses` says of a recipe that it asks for every one of some children, for each once and for no
others, unless it fails before.  The order in which children are asked for is no part of it: a loop
with its test behind the body asks for the test first in its record and for the body first in its
text.

This is all that has to be known of a recipe to compare the two ways of following it.  On a desk a
part is gone once it has been used, so a recipe that succeeds there was given different children
(`Uses.of_onDesk`); and where the children are different, taking away and looking up are the same
(`Uses.onDesk_eq`).
-/

namespace SyntaxForest

/-! ## Desks -/

theorem Desk.getElem?_erase {α : Type} (desk : Desk α) (child k : NodeIndex) :
    (desk.erase child)[k]? = if k = child then none else desk[k]? := by
  simp only [Std.TreeMap.getElem?_erase, Std.compare_eq_iff_eq, eq_comm (a := k)]

theorem Desk.getElem?_insert {α : Type} (desk : Desk α) (child k : NodeIndex) (part : α) :
    (desk.insert child part)[k]? = if k = child then some part else desk[k]? := by
  simp only [Std.TreeMap.getElem?_insert, Std.compare_eq_iff_eq, eq_comm (a := k)]

namespace Recipe

variable {α β γ : Type}

/-- Unless it fails, the recipe asks for each of these children once, and for no others. -/
inductive Uses : List NodeIndex → Recipe α β → Prop where
  | done (result : β) : Uses [] (.done result)
  | fail (children : List NodeIndex) (error : TreeError) : Uses children (.fail error)
  /-- Nothing is ever found under no link. -/
  | absent (children : List NodeIndex) (next : α → Recipe α β) : Uses children (.need none next)
  | need {children rest : List NodeIndex} {child : NodeIndex} {next : α → Recipe α β}
    (order : children.Perm (child :: rest)) (later : ∀ part, Uses rest (next part)) :
    Uses children (.need (some child) next)

/-! ## Recipes from recipes -/

/-- In which order children are listed as used does not matter. -/
theorem Uses.perm {children children' : List NodeIndex} {recipe : Recipe α β}
    (h : Uses children recipe) (same : children.Perm children') : Uses children' recipe := by
  cases h with
  | done result => exact same.nil_eq ▸ .done result
  | fail _ error => exact .fail children' error
  | absent _ next => exact .absent children' next
  | need order later => exact .need (same.symm.trans order) later

/-- One recipe and then another use the children of both. -/
theorem Uses.bind {first second : List NodeIndex} {recipe : Recipe α β} {next : β → Recipe α γ}
    (h : Uses first recipe) (hnext : ∀ result, Uses second (next result)) :
    Uses (first ++ second) (recipe >>= next) := by
  show Uses (first ++ second) (recipe.bind next)
  induction h with
  | done result => exact hnext result
  | fail children error => exact .fail _ error
  | absent children more => exact .absent _ _
  | need order _ ih => exact .need (order.append_right second) ih

theorem Uses.pure (result : β) : Uses [] (pure result : Recipe α β) := .done result

/-- What is given without a part uses no child. -/
theorem Uses.pure_bind {children : List NodeIndex} {result : β} {next : β → Recipe α γ}
    (h : Uses children (next result)) :
    Uses children ((Pure.pure result : Recipe α β) >>= next) := h

/-- What is done with the result of a recipe makes no difference to what the recipe asks for. -/
theorem Uses.bind_pure {children : List NodeIndex} {recipe : Recipe α β} {next : β → Recipe α γ}
    (h : Uses children recipe) (hnext : ∀ result, Uses [] (next result)) :
    Uses children (recipe >>= next) :=
  List.append_nil children ▸ h.bind hnext

/-! ## Link by link

The children of a node are those of its links that are not empty. -/

theorem filterMap_cons_toList (child : Link) (links : List Link) :
    (child :: links).filterMap id = child.toList ++ links.filterMap id := by
  cases child <;> rfl

/-- A recipe that uses the first of some links, and then one that uses the others. -/
theorem Uses.cons {child : Link} {links : List Link} {recipe : Recipe α β} {next : β → Recipe α γ}
    (h : Uses child.toList recipe) (hnext : ∀ result, Uses (links.filterMap id) (next result)) :
    Uses ((child :: links).filterMap id) (recipe >>= next) :=
  filterMap_cons_toList child links ▸ h.bind hnext

/-- A link that may be empty is used if it is not. -/
theorem Uses.cons_optional {child : Link} {links : List Link} {absent present : Recipe α β}
    (habsent : Uses (links.filterMap id) absent)
    (hpresent : Uses ((child :: links).filterMap id) present) :
    Uses ((child :: links).filterMap id) (if child.isNone then absent else present) := by
  cases child with
  | none => exact habsent
  | some child => exact hpresent

/-- To take a part is to use the child, if there is one. -/
theorem uses_take (child : Link) : Uses child.toList (take child : Recipe α α) := by
  cases child with
  | none => exact .absent _ _
  | some child => exact .need (List.Perm.refl _) .done

theorem uses_takeRequired (kind : Kind) (slot : ChildSlot) (child : Link) :
    Uses child.toList (takeRequired kind slot child : Recipe α α) := by
  unfold takeRequired
  split
  · exact .fail _ _
  · exact uses_take child

/-- To refuse a node is not to use a child. -/
theorem Uses.require {children : List NodeIndex} {next : Recipe α β} (h : Uses children next)
    (kind : Kind) (slot : ChildSlot) (child : Link) :
    Uses children (require kind slot child >>= fun _ => next) := by
  unfold Recipe.require
  split
  · exact .fail children _
  · exact h

/-- To take the parts of a list is to use the children in it. -/
theorem uses_takeAll (children : List Link) :
    Uses (children.filterMap id) (takeAll children : Recipe α (List α)) := by
  induction children with
  | nil => exact .done []
  | cons child rest ih =>
    exact .cons (uses_take child) fun part => ih.bind_pure fun parts => .pure (part :: parts)

/-! ## Following a recipe -/

/-- Only the parts that a recipe uses matter. -/
theorem Uses.withParts_congr {children : List NodeIndex} {recipe : Recipe α β}
    (h : Uses children recipe) {look look' : Link → Except TreeError α}
    (absent : ∃ error, look none = .error error ∧ look' none = .error error)
    (same : ∀ c ∈ children, look (some c) = look' (some c)) :
    recipe.withParts look = recipe.withParts look' := by
  induction h with
  | done | fail => rfl
  | absent =>
    obtain ⟨error, h, h'⟩ := absent
    simp only [withParts, h, h']
  | @need children rest child next order _ ih =>
    rw [withParts, withParts, same child (order.mem_iff.mpr List.mem_cons_self)]
    cases look' (some child) with
    | error => rfl
    | ok part =>
      exact ih part fun c hc => same c (order.mem_iff.mpr (List.mem_cons_of_mem child hc))

/-- **A recipe that succeeds on a desk found every one of its children there, all different, has
taken them away, and gives the same result wherever the same parts are looked up.** -/
theorem Uses.of_onDesk {children : List NodeIndex} {recipe : Recipe α β}
    (h : Uses children recipe) {desk after : Desk α} {result : β}
    (run : recipe.onDesk desk = .ok (result, after)) :
    children.Nodup ∧ (∀ c ∈ children, ∃ part, desk[c]? = some part) ∧
      (∀ k, after[k]? = if k ∈ children then none else desk[k]?) ∧
      ∀ look : Link → Except TreeError α,
        (∀ c ∈ children, ∀ part, desk[c]? = some part → look (some c) = .ok part) →
          recipe.withParts look = .ok result := by
  induction h generalizing desk with
  | done r =>
    simp only [onDesk, Except.ok.injEq, Prod.mk.injEq] at run
    obtain ⟨rfl, rfl⟩ := run
    exact ⟨List.nodup_nil, by simp, by simp, fun _ _ => rfl⟩
  | fail => cases run
  | absent => cases run
  | @need children rest child next order _ ih =>
    rw [onDesk] at run
    cases hpart : desk[child]? with
    | none => simp [hpart] at run
    | some part =>
      simp only [hpart] at run
      obtain ⟨nodup, found, cleared, looked⟩ := ih part run
      -- what was taken is not there to be taken again
      have fresh : child ∉ rest := by
        intro again
        obtain ⟨_, hpart'⟩ := found child again
        rw [Desk.getElem?_erase, if_pos rfl] at hpart'
        cases hpart'
      have other {c : NodeIndex} (hc : c ∈ rest) : (desk.erase child)[c]? = desk[c]? := by
        rw [Desk.getElem?_erase, if_neg (ne_of_mem_of_not_mem hc fresh)]
      refine ⟨order.nodup_iff.mpr (List.nodup_cons.mpr ⟨fresh, nodup⟩), ?_, ?_, ?_⟩
      · intro c hc
        rcases List.mem_cons.mp (order.mem_iff.mp hc) with rfl | hc
        · exact ⟨part, hpart⟩
        · exact other hc ▸ found c hc
      · intro k
        rw [cleared, Desk.getElem?_erase]
        simp only [order.mem_iff, List.mem_cons]
        by_cases hk : k = child <;> simp [hk]
      · intro look hlook
        have asked := hlook child (order.mem_iff.mpr List.mem_cons_self) part hpart
        rw [withParts, asked]
        refine looked look fun c hc part hpart => hlook c ?_ part (other hc ▸ hpart)
        exact order.mem_iff.mpr (List.mem_cons_of_mem child hc)

/-- **Where all children are different and lie on the desk, following a recipe there is following it
with the same parts looked up**, errors included. -/
theorem Uses.onDesk_eq {children : List NodeIndex} {recipe : Recipe α β} (h : Uses children recipe)
    (nodup : children.Nodup) (desk : Desk α) (look : Link → Except TreeError α)
    (absent : look none = .error (.unknownNode none))
    (found : ∀ c ∈ children, ∃ part, desk[c]? = some part ∧ look (some c) = .ok part) :
    match recipe.withParts look with
    | .error error => recipe.onDesk desk = .error error
    | .ok result => ∃ after, recipe.onDesk desk = .ok (result, after) ∧
        ∀ k, after[k]? = if k ∈ children then none else desk[k]? := by
  induction h generalizing desk with
  | done result => exact ⟨desk, rfl, by simp⟩
  | fail => rfl
  | absent children next => simp only [withParts, absent, onDesk]
  | @need children rest child next order _ ih =>
    obtain ⟨fresh, nodup⟩ := List.nodup_cons.mp (order.nodup_iff.mp nodup)
    obtain ⟨part, hpart, asked⟩ := found child (order.mem_iff.mpr List.mem_cons_self)
    have rest := ih part nodup (desk.erase child) fun c hc => by
      rw [Desk.getElem?_erase, if_neg (ne_of_mem_of_not_mem hc fresh)]
      exact found c (order.mem_iff.mpr (List.mem_cons_of_mem child hc))
    simp only [withParts, asked, onDesk, hpart]
    cases result : (next part).withParts look with
    | error error => simpa only [result] using rest
    | ok result' =>
      simp only [result] at rest ⊢
      obtain ⟨after, run, cleared⟩ := rest
      refine ⟨after, run, fun k => ?_⟩
      rw [cleared, Desk.getElem?_erase]
      simp only [order.mem_iff, List.mem_cons]
      by_cases hk : k = child <;> simp [hk]

end Recipe

end SyntaxForest
