import Mathlib.Data.List.Perm.Basic
import SyntaxForest.Proofs.EqualRecords
import SyntaxForest.Proofs.Readback

/-!
# Equality of JSON values

`Json.Equal` says when two values are equal, at any depth and without a word about lookups: objects
are equal if the fields of one, in some order, are those of the other; integers are equal to
integers only; floats are equal if they have the same value, so that it does not matter which zero
one is.

This is an equivalence (`Equal.refl`, `Equal.symm`, `Equal.trans`), because a reordering and a
comparison place by place can change places.  `Json.same`, which goes through the fields of one
object and looks each of them up in the other, decides it (`Json.same_iff_equal`).  There it matters
that no key is repeated and that no float is a not-number, which holds of every value that can be
stored.
-/

namespace SyntaxForest

namespace Binary64

/-- The value of a finite number in units of `2 ^ -1074`. -/
def value (x : Binary64) : Int := if x.isNegative then -x.units else x.units

theorem isNaN_of_isFinite {x : Binary64} (h : x.isFinite) : x.isNaN = false := by
  simp only [isFinite, isNaN, decide_eq_true_eq, decide_eq_false_iff_not] at h ⊢
  omega

/-- The number of units tells the magnitude. -/
theorem magnitude_eq_of_units {x y : Binary64} (h : x.units = y.units) :
    x.magnitude = y.magnitude := by
  obtain ⟨m, hm, magnitude⟩ := x.exists_units_eq
  obtain ⟨n, hn, magnitude'⟩ := y.exists_units_eq
  rw [h] at hm magnitude
  have significand : m = n :=
    Nat.eq_of_mul_eq_mul_right (Nat.two_pow_pos _) (hm.symm.trans hn)
  rw [← magnitude, ← magnitude', significand]

/-- **Finite numbers are equal if they have the same value.** -/
theorem sameNumber_iff {x y : Binary64} (hx : x.isFinite) (hy : y.isFinite) :
    x.sameNumber y ↔ x.value = y.value := by
  have numbers : x.sameNumber y ↔ x = y ∨ x.magnitude = 0 ∧ y.magnitude = 0 := by
    simp [sameNumber, isNaN_of_isFinite hx, isNaN_of_isFinite hy]
  rw [numbers]
  constructor
  · rintro (rfl | ⟨zero, zero'⟩)
    · rfl
    · rw [value, value, units_eq_zero.mpr zero, units_eq_zero.mpr zero']
      simp
  · intro same
    by_cases zero : x.magnitude = 0
    · refine .inr ⟨zero, units_eq_zero.mp ?_⟩
      rw [value, value, units_eq_zero.mpr zero] at same
      split at same <;> split at same <;> omega
    · -- other numbers have a sign, which their value tells
      refine .inl ?_
      have nonzero := mt units_eq_zero.mp zero
      have signed : x.isNegative = y.isNegative ∧ x.units = y.units := by
        rw [value, value] at same
        cases hx : x.isNegative <;> cases hy : y.isNegative <;>
          simp only [hx, hy, Bool.false_eq_true, if_true, if_false, reduceCtorEq, true_and,
            false_and] at same ⊢ <;> omega
      rw [← x.ofMagnitude_magnitude, ← y.ofMagnitude_magnitude, signed.1,
        magnitude_eq_of_units signed.2]

end Binary64

namespace Json

mutual

/-- **Equality of JSON values**, at any depth. -/
inductive Equal : Json → Json → Prop where
  | null : Equal .null .null
  | bool (b : Bool) : Equal (.bool b) (.bool b)
  | int (n : Int) : Equal (.int n) (.int n)
  | float {x y : Binary64} (h : x.value = y.value) : Equal (.float x) (.float y)
  | string (s : String) : Equal (.string s) (.string s)
  | array {items others : List Json} (h : List.Forall₂ Equal items others) :
    Equal (.array items) (.array others)
  /-- The other fields can be brought in an order in which they are equal place by place. -/
  | object {fields ordered others : List (String × Json)}
    (h : List.Forall₂ EqualField fields ordered) (order : ordered.Perm others) :
    Equal (.object fields) (.object others)

/-- Fields of one name with equal values. -/
inductive EqualField : String × Json → String × Json → Prop where
  | mk (name : String) {v w : Json} (h : Equal v w) : EqualField (name, v) (name, w)

end

theorem equalField_iff {field other : String × Json} :
    EqualField field other ↔ field.1 = other.1 ∧ field.2.Equal other.2 := by
  constructor
  · rintro ⟨name, h⟩
    exact ⟨rfl, h⟩
  · obtain ⟨name, v⟩ := field
    obtain ⟨name', w⟩ := other
    rintro ⟨rfl, h⟩
    exact .mk name h

/-- What equality comes to for values of each kind. -/
theorem equal_iff {v w : Json} : v.Equal w ↔ match v, w with
    | .null, .null => True
    | .bool b, .bool c => b = c
    | .int m, .int n => m = n
    | .float x, .float y => x.value = y.value
    | .string s, .string t => s = t
    | .array items, .array others => List.Forall₂ Equal items others
    | .object fields, .object others =>
      ∃ ordered, List.Forall₂ EqualField fields ordered ∧ ordered.Perm others
    | _, _ => False := by
  constructor
  · intro h
    cases h with
    | null => trivial
    | bool | int | string => rfl
    | float h | array h => exact h
    | object h order => exact ⟨_, h, order⟩
  · intro h
    cases v <;> cases w <;> simp only at h
    case null.null => exact .null
    case float.float => exact .float h
    case array.array => exact .array h
    case object.object => exact h.elim fun ordered h => .object h.1 h.2
    all_goals subst h
    case bool.bool b => exact .bool b
    case int.int n => exact .int n
    case string.string s => exact .string s

/-- What relates equal scalars, and relates arrays and objects when it relates their parts, relates
all equal values. -/
@[elab_as_elim]
theorem Equal.induction {motive : Json → Json → Prop} (null : motive .null .null)
    (bool : ∀ b, motive (.bool b) (.bool b)) (int : ∀ n, motive (.int n) (.int n))
    (float : ∀ x y : Binary64, x.value = y.value → motive (.float x) (.float y))
    (string : ∀ s, motive (.string s) (.string s))
    (array : ∀ items others, List.Forall₂ motive items others →
      motive (.array items) (.array others))
    (object : ∀ fields ordered others,
      List.Forall₂ (fun field other => field.1 = other.1 ∧ motive field.2 other.2) fields ordered →
      ordered.Perm others → motive (.object fields) (.object others))
    {v w : Json} (h : v.Equal w) : motive v w :=
  let relates (field other : String × Json) : Prop := field.1 = other.1 ∧ motive field.2 other.2
  @Equal.rec (fun v w _ => motive v w) (fun field other _ => relates field other)
    (fun items others _ => List.Forall₂ motive items others)
    (fun fields others _ => List.Forall₂ relates fields others)
    null bool int (fun h => float _ _ h) string (fun _ ih => array _ _ ih)
    (fun _ order ih => object _ _ _ ih order) (fun _ _ _ _ ih => ⟨rfl, ih⟩)
    .nil (fun _ _ first rest => .cons first rest) .nil (fun _ _ first rest => .cons first rest)
    _ _ h

/-! ## An equivalence -/

theorem Equal.refl (v : Json) : v.Equal v := by
  induction v using Json.induction with
  | null => exact .null
  | bool b => exact .bool b
  | int n => exact .int n
  | float x => exact .float rfl
  | string s => exact .string s
  | array items ih => exact .array (List.forall₂_same.mpr ih)
  | object fields ih =>
    exact .object (List.forall₂_same.mpr fun field mem => .mk field.1 (ih field mem)) (.refl _)

theorem Equal.symm {v w : Json} (h : v.Equal w) : w.Equal v := by
  refine Equal.induction .null .bool .int ?float .string ?array ?object h
  case float => exact fun x y h => .float h.symm
  case array => exact fun items others ih => .array ih.flip
  case object =>
    intro fields ordered others ih order
    have back : List.Forall₂ EqualField ordered fields :=
      ih.flip.imp fun _ _ h => equalField_iff.mpr ⟨h.1.symm, h.2⟩
    -- the fields are brought in the order of the others, instead of the other way round
    obtain ⟨reordered, h, order⟩ := List.perm_comp_forall₂ order.symm back
    exact .object h order

/-- What holds of what is related in two steps, place by place. -/
theorem forall₂_trans {α β γ : Type} {R : α → β → Prop} {S : β → γ → Prop} {T : α → γ → Prop}
    (step : ∀ {a b c}, R a b → S b c → T a c) {xs : List α} {ys : List β} {zs : List γ}
    (h : List.Forall₂ R xs ys) (h' : List.Forall₂ S ys zs) : List.Forall₂ T xs zs := by
  induction h generalizing zs with
  | nil =>
    cases h'
    exact .nil
  | cons first _ ih =>
    cases h' with
    | cons first' rest' => exact .cons (step first first') (ih rest')

theorem Equal.trans {u v w : Json} (h : u.Equal v) (h' : v.Equal w) : u.Equal w := by
  suffices onward : ∀ w, v.Equal w → u.Equal w from onward w h'
  refine Equal.induction (fun _ => id) (fun _ _ => id) (fun _ _ => id) ?float (fun _ _ => id)
    ?array ?object h
  case float =>
    intro x y h w h'
    cases h' with
    | float h' => exact .float (h.trans h')
  case array =>
    intro items others ih w h'
    cases h' with
    | array h' => exact .array (forall₂_trans (fun ih h => ih _ h) ih h')
  case object =>
    intro fields ordered others ih order w h'
    cases h' with
    | object h' order' =>
      obtain ⟨reordered, h', order⟩ := List.perm_comp_forall₂ order h'
      refine .object (forall₂_trans (fun ih h => ?_) ih h') (order.trans order')
      obtain ⟨name, h⟩ := equalField_iff.mp h
      exact equalField_iff.mpr ⟨ih.1.trans name, ih.2 _ h⟩

/-! ## Deciding equality -/

/-- Where no key is repeated, a field is what is found under its key. -/
theorem lookup_of_mem {fields : List (String × Json)} (distinct : (fields.map Prod.fst).Nodup)
    {field : String × Json} (mem : field ∈ fields) : fields.lookup field.1 = some field.2 := by
  obtain ⟨front, back, rfl⟩ := List.append_of_mem mem
  rw [List.map_append, List.map_cons, List.nodup_append] at distinct
  refine List.lookup_eq_some_iff.mpr ⟨front, back, rfl, fun other before => ?_⟩
  have apart := distinct.2.2 _ (List.mem_map_of_mem before) _ List.mem_cons_self
  exact bne_iff_ne.mpr apart.symm

theorem mem_of_lookup {fields : List (String × Json)} {name : String} {v : Json}
    (found : fields.lookup name = some v) : (name, v) ∈ fields := by
  obtain ⟨front, back, rfl, -⟩ := List.lookup_eq_some_iff.mp found
  exact List.mem_append_right front List.mem_cons_self

/-- **Where no key is repeated, objects are the same if the other fields can be brought in an order
in which they are the same place by place.** -/
theorem same_object_iff {fields others : List (String × Json)}
    (distinct : (fields.map Prod.fst).Nodup) (distinct' : (others.map Prod.fst).Nodup) :
    (object fields).same (.object others) ↔ ∃ ordered,
      List.Forall₂ (fun a b => a.1 = b.1 ∧ a.2.same b.2) fields ordered ∧ ordered.Perm others := by
  constructor
  · intro same
    rw [Json.same, Bool.and_eq_true, beq_iff_eq, sameFields_iff] at same
    obtain ⟨length, found⟩ := same
    -- the other fields in the order of the names here
    let ordered := fields.map fun field => (field.1, (others.lookup field.1).getD .null)
    refine ⟨ordered, ?_, ?_⟩
    · refine List.forall₂_map_right_iff.mpr (List.forall₂_same.mpr fun field mem => ⟨rfl, ?_⟩)
      obtain ⟨other, found, same⟩ := found field mem
      rwa [found]
    · have names : ordered.map Prod.fst = fields.map Prod.fst := List.map_map
      have among : ordered ⊆ others := by
        intro _ listed
        obtain ⟨field, mem, rfl⟩ := List.mem_map.mp listed
        obtain ⟨other, found, -⟩ := found field mem
        rw [found]
        exact mem_of_lookup found
      have part := List.subperm_of_subset (.of_map Prod.fst (names ▸ distinct)) among
      refine part.perm_of_length_le ?_
      rw [List.length_map, length]
  · rintro ⟨ordered, h, order⟩
    have nodup : (ordered.map Prod.fst).Nodup := (order.map Prod.fst).nodup_iff.mpr distinct'
    have same := same_of_forall₂ h nodup
    rw [Json.same, Bool.and_eq_true, beq_iff_eq, sameFields_iff] at same ⊢
    refine ⟨same.1.trans order.length_eq, fun field mem => ?_⟩
    obtain ⟨other, found, equal⟩ := same.2 field mem
    exact ⟨other, lookup_of_mem distinct' (order.subset (mem_of_lookup found)), equal⟩

/-- Lists are related place by place if the relations agree on what is in them. -/
theorem forall₂_iff_of_mem {α β : Type} {R S : α → β → Prop} {xs : List α} {ys : List β}
    (h : ∀ x ∈ xs, ∀ y ∈ ys, (R x y ↔ S x y)) : List.Forall₂ R xs ys ↔ List.Forall₂ S xs ys := by
  induction xs generalizing ys with
  | nil => cases ys <;> simp
  | cons x xs ih =>
    cases ys with
    | nil => simp
    | cons y ys =>
      rw [List.forall₂_cons, List.forall₂_cons, h x List.mem_cons_self y List.mem_cons_self,
        ih fun x mem y mem' => h x (List.mem_cons_of_mem _ mem) y (List.mem_cons_of_mem _ mem')]

/-- **What is compared field by field and place by place is equality of values.** -/
theorem same_iff_equal {v w : Json} (hv : v.Storable) (hw : w.Storable) :
    v.same w ↔ v.Equal w := by
  induction v using Json.induction generalizing w with
  | null | bool | int | string => cases w <;> simp [Json.same, equal_iff]
  | float x =>
    cases w with
    | float y =>
      cases hv with | float finite =>
      cases hw with | float finite' =>
      rw [equal_iff]
      exact Binary64.sameNumber_iff finite finite'
    | _ => simp [Json.same, equal_iff]
  | array items ih =>
    cases w with
    | array others =>
      cases hv with | array storable =>
      cases hw with | array storable' =>
      rw [equal_iff, Json.same, sameItems_iff]
      exact forall₂_iff_of_mem fun v mem w mem' => ih v mem (storable v mem) (storable' w mem')
    | _ => simp [Json.same, equal_iff]
  | object fields ih =>
    cases w with
    | object others =>
      cases hv with | object storable distinct =>
      cases hw with | object storable' distinct' =>
      rw [equal_iff, same_object_iff distinct distinct']
      refine exists_congr fun ordered => and_congr_left fun order => ?_
      refine forall₂_iff_of_mem fun field mem other mem' => ?_
      rw [equalField_iff, ih field mem (storable field mem) (storable' other (order.subset mem'))]
    | _ => simp [Json.same, equal_iff]

end Json

end SyntaxForest
