import Mathlib.Data.List.Infix
import SyntaxForest.Proofs.Appending

/-!
# What an edit is refused for

There can be several things to say against an edit that stores children where children are required.
`Edit.complaints` lists all that could be said, in order of weight and each under a condition of its
own: against the node first, and then against the children one after the other.  An edit is refused
for the first complaint that applies, whatever the order in which its checks are made
(`Edit.demands_eq_verdict`).

There is one exception (`Edit.IsHasty`).  Whoever adds an element to an object is told that it is no
property before anything else is known of it.  So no child at all is refused for not being a node,
and a child from above is refused for its kind.
-/

namespace SyntaxForest

/-! ## Complaints -/

/-- What is said in the end: the first complaint, if there is one. -/
def verdict (complaints : List (Option TreeError)) : Except TreeError Unit :=
  match complaints.findSome? id with
  | none => .ok ()
  | some err => .error err

theorem verdict_append (heavy light : List (Option TreeError)) :
    verdict (heavy ++ light) = (do verdict heavy; verdict light) := by
  rw [verdict, List.findSome?_append]
  cases first : heavy.findSome? id <;> simp only [verdict, first] <;> rfl

theorem verdict_cons (c : Option TreeError) (light : List (Option TreeError)) :
    verdict (c :: light) = (do verdict [c]; verdict light) := verdict_append [c] light

theorem verdict_ite (p : Prop) [Decidable p] (err : TreeError) :
    verdict [if p then some err else none] = if p then throw err else pure () := by
  by_cases h : p <;> simp only [h, if_true, if_false] <;> rfl

theorem verdict_eq_ok_iff {complaints : List (Option TreeError)} :
    verdict complaints = .ok () ↔ complaints.findSome? id = none := by
  rw [verdict]
  cases complaints.findSome? id <;> simp

theorem verdict_eq_error_iff {complaints : List (Option TreeError)} {err : TreeError} :
    verdict complaints = .error err ↔ complaints.findSome? id = some err := by
  rw [verdict]
  cases complaints.findSome? id <;> simp

namespace Forest

/-- What can be said against a node that is to hold children. -/
def holderComplaints (f : Forest) (owner : Expectation) (node : Link) : List (Option TreeError) :=
  [if f.contains node then none else some (.unknownNode node),
    (f.kind? node).bind fun found =>
      if owner.admits found then none else some (.unexpectedKind owner found)]

/-- The node and what stands above it. -/
def upwards (f : Forest) (node : Link) : List Link := node :: (f.ancestors node).map some

/-- What can be said against a child wherever it is to stand. -/
def placeComplaints (f : Forest) (node : Link) (part : Part) (child : Link) :
    List (Option TreeError) :=
  [if child = none then (f.kind? node).map (.missingRequiredChild · part) else none,
    if f.contains child then none else some (.unknownNode child),
    if child ∈ f.upwards node then some (.wouldCreateCycle node child) else none]

/-- What can be said against an entry of a list, that has other entries before it. -/
def entryComplaints (f : Forest) (node : Link) (slot : ListSlot) (before : List Link)
    (child : Link) : List (Option TreeError) :=
  f.placeComplaints node (.list slot) child ++
    [((f.kind? node).bind slot.entryKind?).bind fun demand => (f.kind? child).bind fun found =>
        if found = demand then none else some (.unexpectedKind (.kind demand) found),
      if child ∈ before then some (.duplicateChild child slot) else none]

end Forest

namespace Edit

/-- Whether an edit stores children where children are required. -/
def requiresChildren : Edit → Bool
  | .setChild slot _ _ => slot.isRequired
  | .setList .. | .append .. => true
  | _ => false

/-- What can be said against an edit, in order of weight.  The entries of a list have those before
them in the list, and a child that is added has all that are there. -/
def complaints (f : Forest) : Edit → List (Option TreeError)
  | .setChild slot node child =>
    f.holderComplaints slot.owner node ++ f.placeComplaints node (.child slot) child
  | .setList slot node children =>
    f.holderComplaints slot.owner node ++
      (children.inits.zip children).flatMap fun (before, child) =>
        f.entryComplaints node slot before child
  | .append slot node child =>
    f.holderComplaints slot.owner node ++ f.entryComplaints node slot (f.list node slot) child
  | _ => []

/-- To add to an object what it cannot have wherever it comes from: no child, or one from above
that is no property. -/
def IsHasty (f : Forest) (e : Edit) : Prop :=
  ∃ node child, e = .append .elements node child ∧ f.kind? node = some .objectLiteral ∧
    (child = none ∨ child ∈ f.upwards node ∧ f.kind? child ≠ some .objectProperty)

end Edit

/-! ## Checks as complaints -/

namespace Forest

variable {f : Forest} {node child : Link} {k : Kind}

/-- A child is checked for what can be said against it. -/
theorem checkChild_eq (hk : f.kind? node = some k) (part : Part) :
    f.checkChild node child part true = verdict (f.placeComplaints node part child) := by
  obtain ⟨h, hh, rfl⟩ := Option.map_eq_some_iff.mp hk
  rw [checkChild, header_eq_ok_iff.mpr hh, placeComplaints, hk]
  cases child with
  | none => rfl
  | some c =>
    have above : some c ∈ f.upwards node ↔ some c = node ∨ c ∈ f.ancestors node := by
      simp [upwards]
    rw [if_neg (Option.some_ne_none c), contains]
    show (do
      let _ ← f.header (some c)
      if some c = node ∨ c ∈ f.ancestors node then throw (.wouldCreateCycle node (some c))
      else pure () : Except TreeError Unit) = _
    rw [header]
    cases f.header? (some c) with
    | none => rfl
    | some _ =>
      show _ = verdict [if some c ∈ f.upwards node then some (.wouldCreateCycle node (some c))
        else none]
      rw [verdict_ite, if_congr above rfl rfl]
      rfl

theorem headerOf_of_header? {x : Link} {h : Header} (hh : f.header? x = some h)
    (expected : Expectation) : f.headerOf expected x =
      if expected.admits h.kind then .ok h else .error (.unexpectedKind expected h.kind) := by
  rw [headerOf, hh]

/-- A node is checked for its kind. -/
theorem checkKind_eq (known : f.contains child) (demand : Option Kind) :
    f.checkKind child demand = verdict [demand.bind fun demand => (f.kind? child).bind fun found =>
      if found = demand then none else some (.unexpectedKind (.kind demand) found)] := by
  obtain ⟨h, hh⟩ := exists_header?_of_contains known
  cases demand with
  | none => rfl
  | some demand =>
    rw [checkKind, headerOf_of_header? hh, kind?_of_header? hh, Option.bind_some, Option.bind_some]
    by_cases suits : h.kind = demand
    · have admitted : (Expectation.kind demand).admits h.kind := beq_iff_eq.mpr suits
      rw [if_pos admitted, if_pos suits]
      rfl
    · have refused : ¬ (Expectation.kind demand).admits h.kind := mt beq_iff_eq.mp suits
      rw [if_neg refused, if_neg suits]
      rfl

/-- An entry is checked for what can be said against it. -/
theorem checkEntry_eq (hk : f.kind? node = some k) (slot : ListSlot) (before : List Link) :
    (do
      f.checkChild node child (.list slot) true
      f.checkKind child (slot.entryKind? k)
      checkAbsent slot child before) = verdict (f.entryComplaints node slot before child) := by
  rw [entryComplaints, verdict_append, checkChild_eq hk]
  cases place : verdict (f.placeComplaints node (.list slot) child) with
  | error err => rfl
  | ok =>
    have known : f.contains child := by
      rw [← checkChild_eq hk, checkChild_eq_ok_iff] at place
      cases child with
      | none => cases place.2
      | some c => exact place.2.1
    show (do f.checkKind child (slot.entryKind? k); checkAbsent slot child before) = _
    rw [verdict_cons, verdict_ite, checkKind_eq known, hk]
    rfl

theorem entryComplaints_congr {before before' : List Link}
    (h : child ∈ before ↔ child ∈ before') (slot : ListSlot) :
    f.entryComplaints node slot before child = f.entryComplaints node slot before' child := by
  simp only [entryComplaints, h]

/-- A list is checked for what can be said against its entries. -/
theorem checkList_eq (hk : f.kind? node = some k) (slot : ListSlot) (before children : List Link) :
    f.checkList node slot (slot.entryKind? k) before children =
      verdict ((children.inits.zip children).flatMap fun entry =>
        f.entryComplaints node slot (before ++ entry.1) entry.2) := by
  induction children generalizing before with
  | nil => rfl
  | cons child rest ih =>
    have later (entry : List Link × Link) :
        f.entryComplaints node slot (child :: before ++ entry.1) entry.2 =
          f.entryComplaints node slot (before ++ child :: entry.1) entry.2 :=
      entryComplaints_congr (by simp [or_left_comm]) slot
    rw [List.inits_cons, List.zip_cons_cons, List.flatMap_cons, verdict_append,
      ← checkEntry_eq hk, List.zip_map_left, List.flatMap_map, checkList, ih]
    simp only [later, bind_assoc, List.append_nil]
    rfl

/-- A node is checked for what can be said against it, and then its children are.  That it has
contents is no question: a node of a kind that has the part has them. -/
theorem holder_eq (hf : f.Intact) (part : Part) (early : Bool)
    (rest : Kind → Except TreeError Unit) (light : List (Option TreeError))
    (next : ∀ k, f.kind? node = some k → rest k = verdict light) :
    (do
      let h ← f.headerOf part.owner node
      if early then
        let _ ← f.contentsOf part.owner node
      rest h.kind) = verdict (f.holderComplaints part.owner node ++ light) := by
  rw [verdict_append, holderComplaints, contains]
  cases hh : f.header? node with
  | none =>
    rw [headerOf, hh]
    rfl
  | some h =>
    have hk := kind?_of_header? hh
    rw [headerOf_of_header? hh, hk, ← next h.kind hk, Option.bind_some]
    by_cases admitted : part.owner.admits h.kind
    · obtain ⟨c, contents⟩ := Edit.exists_contentsOf hf hh admitted
      rw [if_pos admitted, if_pos admitted, contents]
      cases early <;> rfl
    · rw [if_neg admitted, if_neg admitted]
      rfl

/-- **The order of the checks makes no difference to what a child is refused for when it is added,**
unless it is no child or one from above that is added to an object. -/
theorem Linked.checkAppend_eq_verdict (hf : f.Linked) (hk : f.kind? node = some k)
    {slot : ListSlot} (patient : ¬ (Edit.append slot node child).IsHasty f) :
    f.checkAppend node child slot (slot.entryKind? k) =
      verdict (f.entryComplaints node slot (f.list node slot) child) := by
  rw [← checkEntry_eq hk]
  by_cases object : slot = .elements ∧ k = .objectLiteral
  · obtain ⟨rfl, rfl⟩ := object
    show (do
      f.checkKind child (some .objectProperty)
      f.checkChild node child (.list .elements) true
      checkAbsent .elements child (f.list node .elements)) = (do
      f.checkChild node child (.list .elements) true
      f.checkKind child (some .objectProperty)
      checkAbsent .elements child (f.list node .elements))
    by_cases property : f.kind? child = some .objectProperty
    · have suits : f.checkKind child (some .objectProperty) = .ok () :=
        checkKind_eq_ok_iff.mpr fun demand hdemand => Option.some.inj hdemand ▸ property
      rw [suits]
      rfl
    · -- a child that is no property is not checked for anything else, and need not be
      have apart : child ≠ none ∧ child ∉ f.upwards node := by
        refine ⟨fun missing => ?_, fun above => ?_⟩
        · exact patient ⟨node, child, rfl, hk, .inl missing⟩
        · exact patient ⟨node, child, rfl, hk, .inr ⟨above, property⟩⟩
      obtain ⟨present, beside⟩ := apart
      rw [checkChild_eq hk, placeComplaints, if_neg present, if_neg beside]
      cases known : f.contains child with
      | true => rfl
      | false =>
        have unknown : f.header? child = none := by
          rwa [contains, Option.isSome_eq_false_iff, Option.isNone_iff_eq_none] at known
        rw [checkKind, headerOf, unknown]
        rfl
  · rw [hf.checkAppend_eq hk fun elements literal => object ⟨elements, literal⟩,
      hf.checkList_list_concat hk]

end Forest

namespace Edit

variable {f : Forest} {e : Edit}

theorem exists_part_of_requiresChildren (required : e.requiresChildren) :
    ∃ part, e.part? = some part := by
  cases e <;> first | exact ⟨_, rfl⟩ | cases required

/-- **An edit is asked for what can be said against it, in order of weight.** -/
theorem demands_eq_verdict (hf : f.Linked) (required : e.requiresChildren)
    (patient : ¬ e.IsHasty f) : e.demands f = verdict (e.complaints f) := by
  cases e with
  | setChild slot node child =>
    have required : slot.isRequired = true := required
    rw [demands, complaints, required]
    exact Forest.holder_eq hf.intact (.child slot) _ _ _
      fun k hk => Forest.checkChild_eq hk (.child slot)
  | setList slot node children =>
    exact Forest.holder_eq hf.intact (.list slot) _ _ _
      fun k hk => Forest.checkList_eq hk slot [] children
  | append slot node child =>
    exact Forest.holder_eq hf.intact (.list slot) _ _ _
      fun k hk => hf.checkAppend_eq_verdict hk patient
  | write | mark | setRange => cases required

/-! ## The exception -/

section

variable {node child : Link} (object : f.kind? node = some .objectLiteral)
include object

/-- Before an element is added to an object it is asked for its kind. -/
theorem demands_append_object : (append .elements node child).demands f = (do
    f.checkKind child (some .objectProperty)
    f.checkChild node child (.list .elements) true
    Forest.checkAbsent .elements child (f.list node .elements)) := by
  obtain ⟨h, hh, kind⟩ := Option.map_eq_some_iff.mp object
  have holder : f.headerOf .container node = .ok h :=
    Forest.headerOf_eq_ok_iff.mpr ⟨hh, kind ▸ rfl⟩
  show (do
    let h ← f.headerOf .container node
    f.checkAppend node child .elements (ListSlot.elements.entryKind? h.kind)) = _
  rw [holder]
  show f.checkAppend node child .elements (ListSlot.elements.entryKind? h.kind) = _
  rw [kind]
  rfl

/-- There is nothing to say against an object that is to hold elements. -/
theorem first_complaint_append_object :
    ((append .elements node child).complaints f).findSome? id =
      (f.entryComplaints node .elements (f.list node .elements) child).findSome? id := by
  rw [complaints, Forest.holderComplaints, if_pos (Forest.contains_of_kind? object), object]
  rfl

/-- **No child at all is refused for not being a node.**  It should be missed. -/
theorem demands_append_none :
    (append .elements node none).demands f = .error (.unknownNode none) ∧
      ((append .elements node none).complaints f).findSome? id =
        some (.missingRequiredChild .objectLiteral (.list .elements)) := by
  refine ⟨by rw [demands_append_object object]; rfl, ?_⟩
  rw [first_complaint_append_object object, Forest.entryComplaints, Forest.placeComplaints, object]
  rfl

/-- **A child from above is refused for its kind.**  The circle should be. -/
theorem demands_append_above (above : child ∈ f.upwards node) {found : Kind}
    (kind : f.kind? child = some found) (other : found ≠ .objectProperty) :
    (append .elements node child).demands f =
        .error (.unexpectedKind (.kind .objectProperty) found) ∧
      ((append .elements node child).complaints f).findSome? id =
        some (.wouldCreateCycle node child) := by
  have known := Forest.contains_of_kind? kind
  constructor
  · rw [demands_append_object object, Forest.checkKind_eq known, kind, Option.bind_some,
      Option.bind_some, if_neg other]
    rfl
  · have present : child ≠ none := by
      rintro rfl
      cases known
    rw [first_complaint_append_object object, Forest.entryComplaints, Forest.placeComplaints,
      if_neg present, if_pos known, if_pos above]
    rfl

end

/-- **An edit is in order exactly if there is nothing to say against it.** -/
theorem demands_eq_ok_iff_complaints (hf : f.Linked) (required : e.requiresChildren) :
    e.demands f = .ok () ↔ (e.complaints f).findSome? id = none := by
  by_cases patient : e.IsHasty f
  · obtain ⟨node, child, rfl, object, rfl | ⟨above, other⟩⟩ := patient
    · obtain ⟨refused, complaint⟩ := demands_append_none object
      rw [refused, complaint]
      exact iff_of_false nofun nofun
    · have known : f.contains child := by
        rcases List.mem_cons.mp above with rfl | above
        · exact Forest.contains_of_kind? object
        · obtain ⟨c, hc, rfl⟩ := List.mem_map.mp above
          obtain ⟨n, hn⟩ := (Forest.mem_ancestors hf.grounded hf.parents hf.intact).mp hc
          rw [Function.iterate_succ_apply'] at hn
          exact hf.parents hn
      obtain ⟨h, hh⟩ := Forest.exists_header?_of_contains known
      have kind := Forest.kind?_of_header? hh
      obtain ⟨refused, complaint⟩ := demands_append_above object above kind fun property =>
        other (kind.trans (congrArg some property))
      rw [refused, complaint]
      exact iff_of_false nofun nofun
  · rw [demands_eq_verdict hf required patient, verdict_eq_ok_iff]

/-- An edit succeeds if its demands are met. -/
theorem exists_run_eq_ok_iff (hf : f.Linked) {part : Part} (hpart : e.part? = some part) :
    (∃ g, e.run.run f = .ok () g) ↔ e.demands f = .ok () := by
  constructor
  · rintro ⟨g, run⟩
    cases hd : e.demands f with
    | ok => rfl
    | error err => cases run.symm.trans (run_of_demands_error hd)
  · intro hd
    obtain ⟨g, run, -⟩ := exists_transfer hf hpart ((demands_eq_ok_iff hf.intact hpart).mp hd)
    exact ⟨g, run⟩

/-- An edit fails with the error of its demands, and changes nothing. -/
theorem run_eq_error_iff (hf : f.Linked) {part : Part} (hpart : e.part? = some part)
    {err : TreeError} {g : Forest} :
    e.run.run f = .error err g ↔ e.demands f = .error err ∧ g = f := by
  constructor
  · intro run
    cases hd : e.demands f with
    | ok =>
      obtain ⟨g', run'⟩ := (exists_run_eq_ok_iff hf hpart).mpr hd
      cases run.symm.trans run'
    | error err' =>
      cases run.symm.trans (run_of_demands_error hd)
      exact ⟨rfl, rfl⟩
  · rintro ⟨hd, rfl⟩
    exact run_of_demands_error hd

end Edit

/-- **An edit is refused for the first complaint that applies**, in every forest that was reached.
An edit that stores children where children are required succeeds exactly if no complaint applies.
Otherwise its error is the first of these: its node is no node; its node has not the part; and then,
for the children one after the other, that no child is given, that the child is no node, that it is
the node or stands above it, that it has not the kind that the list demands, and that it is in the
list already.

The exception is an element that is added to an object.  No child is refused for not being a node,
and the node itself and what stands above it are refused for their kind, if it is not that of
properties. -/
theorem Reached.refused_for_first_complaint {f : Forest} {loose : List NodeIndex}
    (h : Reached f loose) {e : Edit} (required : e.requiresChildren) :
    ((∃ g, e.run.run f = .ok () g) ↔ ∀ complaint ∈ e.complaints f, complaint = none) ∧
    (¬ e.IsHasty f → ∀ err, (∃ g, e.run.run f = .error err g) ↔
      (e.complaints f).findSome? id = some err) ∧
    ∀ node child, e = .append .elements node child → f.kind? node = some .objectLiteral →
      (child = none → e.run.run f = .error (.unknownNode none) f ∧
        (e.complaints f).findSome? id =
          some (.missingRequiredChild .objectLiteral (.list .elements))) ∧
      ∀ found ≠ .objectProperty, f.kind? child = some found → child ∈ f.upwards node →
        e.run.run f = .error (.unexpectedKind (.kind .objectProperty) found) f ∧
          (e.complaints f).findSome? id = some (.wouldCreateCycle node child) := by
  have hf := h.tended.linked
  obtain ⟨part, hpart⟩ := Edit.exists_part_of_requiresChildren required
  refine ⟨?_, fun patient err => ?_, ?_⟩
  · rw [Edit.exists_run_eq_ok_iff hf hpart, Edit.demands_eq_ok_iff_complaints hf required]
    exact List.findSome?_eq_none_iff
  · simp only [Edit.run_eq_error_iff hf hpart, Edit.demands_eq_verdict hf required patient,
      verdict_eq_error_iff, exists_and_left, exists_eq, and_true]
  · rintro node child rfl object
    refine ⟨?_, fun found other kind above => ?_⟩
    · rintro rfl
      obtain ⟨refused, complaint⟩ := Edit.demands_append_none object
      exact ⟨Edit.run_of_demands_error refused, complaint⟩
    · obtain ⟨refused, complaint⟩ := Edit.demands_append_above object above kind other
      exact ⟨Edit.run_of_demands_error refused, complaint⟩

/-- The list of a block cannot be replaced by the loop that it holds, the block itself, no child and
the loop again.  Four complaints apply, and the first is that of the circle. -/
theorem refused_for_first_complaint_nested :
    (((Edit.setList .statements (some 0) [some 1, some 0, none, some 1]).complaints
      (Command.perform Command.nested).1).filterMap id = [.wouldCreateCycle (some 0) (some 0),
        .missingRequiredChild .block (.list .statements), .unknownNode none,
        .duplicateChild (some 1) .statements]) ∧
    ∃ g, (Edit.setList .statements (some 0) [some 1, some 0, none, some 1]).run.run
      (Command.perform Command.nested).1 = .error (.wouldCreateCycle (some 0) (some 0)) g := by
  have complaints := (reached_perform Command.nested).refused_for_first_complaint
    (e := .setList .statements (some 0) [some 1, some 0, none, some 1]) rfl
  have patient : ¬ (Edit.setList .statements (some 0) [some 1, some 0, none, some 1]).IsHasty
      (Command.perform Command.nested).1 := by
    rintro ⟨node, child, same, -⟩
    cases same
  exact ⟨by decide +kernel, (complaints.2.1 patient _).mpr (by decide +kernel)⟩

/-- An object is the first node of its forest, and no child is added to it. -/
theorem not_refused_for_first_complaint : ¬ ∀ (f : Forest) (loose : List NodeIndex) (e : Edit),
    Reached f loose → e.requiresChildren → ∀ err g, e.run.run f = .error err g →
      (e.complaints f).findSome? id = some err := by
  intro refused
  have h := reached_perform [(1, .construct (.node .objectLiteral 0 0))]
  have demands : (Edit.append .elements (some 0) none).demands
      (Command.perform [(1, .construct (.node .objectLiteral 0 0))]).1 =
        .error (.unknownNode none) := by decide +kernel
  have missed : ((Edit.append .elements (some 0) none).complaints
      (Command.perform [(1, .construct (.node .objectLiteral 0 0))]).1).findSome? id =
        some (.missingRequiredChild .objectLiteral (.list .elements)) := by decide +kernel
  cases missed.symm.trans (refused _ _ _ h rfl _ _ (Edit.run_of_demands_error demands))

end SyntaxForest
