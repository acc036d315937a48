import Mathlib.Order.Bounds.Basic
import Mathlib.Order.Fin.Basic
import SyntaxForest.Proofs.JsonEquality
import SyntaxForest.Proofs.Recovery
import SyntaxForest.Proofs.WrittenOnce

/-!
# What annotation sets keep

Of the records that are inserted, an annotation set keeps the first of each class of equal ones, in
their order.  `AnnotationSet.Keeps` says so with the places of the records that are kept: an
insertion adds no place or one behind all others (`Keeps.insert`), and so whole lists are kept in
this way (`exists_keeps`).

The argument is about classes of records, so it is here that equality of values has to be an
equivalence: a record that is not inserted is equal to one that was kept, and not to whatever its
class began with.

A set that is attached to a node is repeated in the record of the node as it is
(`Interchange.at?_attachment`).

The records are values that can be stored: no object in them has a key twice, and no float is an
infinity or a not-number.  This holds of every value that is read from a text.
-/

namespace SyntaxForest

namespace AnnotationSet

variable {set : AnnotationSet} {records : List Json} {places : List Nat}

/-- A record stands at a place of a list, and none before it is equal to it. -/
structure IsFirst (records : List Json) (place : Nat) (entry : Json) : Prop where
  found : records[place]? = some entry
  fresh : ∀ {m r}, m < place → records[m]? = some r → ¬ r.Equal entry

/-- The set holds the records at some places of a list, which are the first ones of their classes.
Every record of the list is equal to one that the set holds. -/
structure Keeps (set : AnnotationSet) (records : List Json) (places : List Nat) : Prop where
  increasing : places.Pairwise (· < ·)
  first : List.Forall₂ (IsFirst records) places set.records
  covered : ∀ r ∈ records, ∃ entry ∈ set.records, r.Equal entry

/-! ## Insertions -/

theorem IsFirst.lt_length {place : Nat} {entry : Json} (h : IsFirst records place entry) :
    place < records.length :=
  (List.getElem?_eq_some_iff.mp h.found).1

theorem IsFirst.get_eq {place : Fin records.length} {entry : Json}
    (h : IsFirst records place entry) : records.get place = entry :=
  (List.getElem?_eq_some_iff.mp h.found).2

/-- A record that is the first of its class is this also if more records follow. -/
theorem IsFirst.append {place : Nat} {entry : Json} (h : IsFirst records place entry)
    (more : List Json) : IsFirst (records ++ more) place entry where
  found := by rw [List.getElem?_append_left h.lt_length, h.found]
  fresh := by
    intro m r before hr
    rw [List.getElem?_append_left (Nat.lt_trans before h.lt_length)] at hr
    exact h.fresh before hr

theorem Keeps.mem (h : set.Keeps records places) {entry : Json} (kept : entry ∈ set.records) :
    entry ∈ records := by
  obtain ⟨j, hj, rfl⟩ := List.getElem_of_mem kept
  have first := h.first.get (h.first.length_eq ▸ hj) hj
  exact List.mem_of_getElem? first.found

theorem Keeps.lt_length (h : set.Keeps records places) {place : Nat} (mem : place ∈ places) :
    place < records.length := by
  obtain ⟨j, hj, rfl⟩ := List.getElem_of_mem mem
  exact (h.first.get hj (h.first.length_eq ▸ hj)).lt_length

/-- A record is in the set if the set holds one that is equal to it. -/
theorem contains_iff (storable : ∀ entry ∈ set.records, entry.Storable) {record : Json}
    (hr : record.Storable) :
    set.contains record ↔ ∃ entry ∈ set.records, entry.Equal record := by
  rw [contains, List.any_eq_true]
  exact exists_congr fun entry => and_congr_right fun kept =>
    Json.same_iff_equal (storable entry kept) hr

/-- **An insertion keeps the record if it is the first of its class.** -/
theorem Keeps.insert (h : set.Keeps records places) (storable : ∀ r ∈ records, r.Storable)
    {record : Json} (hr : record.Storable) :
    ∃ places, (set.insert record).Keeps (records ++ [record]) places := by
  have known := contains_iff (fun entry kept => storable entry (h.mem kept)) hr
  have before := h.first.imp fun _ _ first => first.append [record]
  rw [AnnotationSet.insert]
  by_cases present : set.contains record
  · rw [if_pos present]
    obtain ⟨entry, kept, equal⟩ := known.mp present
    refine ⟨places, h.increasing, before, ?_⟩
    exact List.forall_mem_append.mpr
      ⟨h.covered, List.forall_mem_singleton.mpr ⟨entry, kept, equal.symm⟩⟩
  · rw [if_neg present]
    have last : IsFirst (records ++ [record]) records.length record := by
      refine ⟨List.getElem?_concat_length, fun {m r} before hr equal => ?_⟩
      rw [List.getElem?_append_left before] at hr
      obtain ⟨entry, kept, equal'⟩ := h.covered r (List.mem_of_getElem? hr)
      exact present (known.mpr ⟨entry, kept, equal'.symm.trans equal⟩)
    refine ⟨places ++ [records.length], ?_, List.rel_append before (.cons last .nil), ?_⟩
    · refine List.pairwise_append.mpr ⟨h.increasing, List.pairwise_singleton _ _, ?_⟩
      exact fun place mem => List.forall_mem_singleton.mpr (h.lt_length mem)
    · refine List.forall_mem_append.mpr ⟨fun r mem => ?_, List.forall_mem_singleton.mpr ?_⟩
      · obtain ⟨entry, kept, equal⟩ := h.covered r mem
        exact ⟨entry, List.mem_append_left _ kept, equal⟩
      · exact ⟨record, List.mem_append_right _ List.mem_cons_self, .refl record⟩

/-- **A set that is made of a list keeps the first record of each class.** -/
theorem exists_keeps (storable : ∀ r ∈ records, r.Storable) :
    ∃ places, (ofList records).Keeps records places := by
  induction records using List.reverseRecOn with
  | nil => exact ⟨[], .nil, .nil, nofun⟩
  | append_singleton records record ih =>
    obtain ⟨storable, last⟩ := List.forall_mem_append.mp storable
    obtain ⟨places, h⟩ := ih storable
    rw [ofList, List.foldl_append]
    exact h.insert storable (List.forall_mem_singleton.mp last)

/-! ## What is kept -/

/-- The places of what is kept, in order. -/
theorem Keeps.exists_embedding (h : set.Keeps records places) :
    ∃ place : Fin set.records.length ↪o Fin records.length,
      ∀ j, IsFirst records (place j) (set.records.get j) := by
  have bound (j : Fin set.records.length) : j < places.length :=
    Nat.lt_of_lt_of_eq j.isLt h.first.length_eq.symm
  have first (j : Fin set.records.length) :
      IsFirst records (places.get ⟨j, bound j⟩) (set.records.get j) := h.first.get (bound j) j.isLt
  let place (j : Fin set.records.length) : Fin records.length := ⟨_, (first j).lt_length⟩
  have increasing : StrictMono place := fun j k before =>
    List.pairwise_iff_get.mp h.increasing ⟨j, bound j⟩ ⟨k, bound k⟩ before
  exact ⟨.ofStrictMono place increasing, first⟩

/-- No two of the records that are kept are equal. -/
theorem Keeps.apart (h : set.Keeps records places) :
    set.records.Pairwise fun v w => ¬ v.Equal w := by
  obtain ⟨place, first⟩ := h.exists_embedding
  refine List.pairwise_iff_get.mpr fun j k before => ?_
  exact (first k).fresh (place.strictMono before) (first j).found

/-- Every record of the list is equal to exactly one record that is kept. -/
theorem Keeps.existsUnique (h : set.Keeps records places) (i : Fin records.length) :
    ∃! j, (records.get i).Equal (set.records.get j) := by
  obtain ⟨entry, kept, equal⟩ := h.covered (records.get i) (List.get_mem records i)
  obtain ⟨j, rfl⟩ := List.get_of_mem kept
  refine ⟨j, equal, fun k equal' => ?_⟩
  have apart := List.pairwise_iff_get.mp h.apart
  rcases Nat.lt_trichotomy j k with before | same | behind
  · exact absurd (equal.symm.trans equal') (apart j k before)
  · exact Fin.ext same.symm
  · exact absurd (equal'.symm.trans equal) (apart k j behind)

/-- What is kept of records of which no two are equal is all of them. -/
theorem ofList_eq_self {entries : List Json} (storable : ∀ entry ∈ entries, entry.Storable)
    (apart : entries.Pairwise fun v w => ¬ v.Equal w) : ofList entries = ⟨entries⟩ := by
  induction entries using List.reverseRecOn with
  | nil => rfl
  | append_singleton entries entry ih =>
    obtain ⟨storable, last⟩ := List.forall_mem_append.mp storable
    obtain ⟨apart, -, fresh⟩ := List.pairwise_append.mp apart
    rw [ofList, List.foldl_append, List.foldl_cons, List.foldl_nil, ← ofList, ih storable apart]
    have absent : ¬ (AnnotationSet.mk entries).contains entry := by
      rw [contains_iff storable (List.forall_mem_singleton.mp last)]
      rintro ⟨other, kept, equal⟩
      exact fresh other kept entry List.mem_cons_self equal
    rw [insert, if_neg absent]

end AnnotationSet

/-! ## Attached sets -/

namespace Interchange

theorem lookup_trailer (r : NodeRecord) (a : Attachment) :
    (trailer r).lookup a.name = some ((r.attachment a).getD .empty).toJson := by
  cases a <;> rfl

variable {f : Forest}

/-- **An attached set is repeated in the record of its node as it is**, wherever this stands. -/
theorem at?_attachment (hf : f.Acyclic) {root x : NodeIndex} {value : Json}
    (recorded : f.record (some root) = .ok value) {path : List Json.Step}
    (place : (path, x) ∈ places f root) {a : Attachment} {set : AnnotationSet}
    (attached : f.attachment? (some x) a = some set) :
    value.at? (path ++ [.field a.name]) = some (.array set.records) := by
  obtain ⟨look, own, hat, filled⟩ := exists_filled_of_place hf recorded place
  obtain ⟨r, hr, hset⟩ := Option.bind_eq_some_iff.mp attached
  have named : a.name ∈ Json.markNames := by cases a <;> simp [Attachment.name, Json.markNames]
  have field : (own ++ trailer r).lookup a.name = some (.array set.records) := by
    rw [filled.lookup_behind (notMem_names_formAt named x), lookup_trailer, hset]
    rfl
  rw [Json.at?_append, hat, hr, Option.bind_some, Option.getD_some, Json.at?, field,
    Option.bind_some, Json.at?_nil]

end Interchange

/-- **An annotation set keeps the first of each class of equal records.**  What a list of records
leaves in the set are records of the list in their order; no two of them are equal, each record of
the list is equal to exactly one of them, and this is the earliest record that is equal to it.  To
insert them again changes nothing.  A node to which the set is attached has it, and wherever its
record stands in the record of a tree, the records of the set are repeated there as they are. -/
theorem AnnotationSet.ofList_keeps_firsts {records : List Json}
    (storable : ∀ r ∈ records, r.Storable) :
    ∃ entries, ofList records = ⟨entries⟩ ∧
      (∃ place : Fin entries.length ↪o Fin records.length,
        (∀ j, entries.get j = records.get (place j)) ∧
        (∀ j k, (entries.get j).Equal (entries.get k) → j = k) ∧
        (∀ i, ∃! j, (records.get i).Equal (entries.get j)) ∧
        ∀ i j, (records.get i).Equal (entries.get j) →
          IsLeast {m | (records.get m).Equal (records.get i)} (place j)) ∧
      ofList entries = ⟨entries⟩ ∧
      (∀ (f g : Forest) (x : Link) (a : Attachment),
        (Edit.mark (.attach a ⟨entries⟩) x).run.run f = .ok () g →
          g.attachment? x a = some ⟨entries⟩) ∧
      ∀ f : Forest, f.Acyclic → ∀ (x : NodeIndex) (a : Attachment),
        f.attachment? (some x) a = some ⟨entries⟩ →
          ∀ root value, f.record (some root) = .ok value →
            ∀ path, (path, x) ∈ Interchange.places f root →
              value.at? (path ++ [.field a.name]) = some (.array entries) := by
  obtain ⟨places, h⟩ := exists_keeps storable
  obtain ⟨place, first⟩ := h.exists_embedding
  have kept (j) : (ofList records).records.get j = records.get (place j) := (first j).get_eq.symm
  refine ⟨(ofList records).records, rfl, ⟨place, kept, ?_, h.existsUnique, ?_⟩, ?_,
    fun f g x a => Forest.attachment?_of_run, ?_⟩
  · intro j k equal
    obtain ⟨l, -, only⟩ := h.existsUnique (place j)
    rw [← kept] at only
    exact (only j (.refl _)).trans (only k equal).symm
  · intro i j equal
    refine ⟨?_, fun m (equal' : (records.get m).Equal _) => ?_⟩
    · show (records.get (place j)).Equal (records.get i)
      rw [← kept]
      exact equal.symm
    · refine Nat.le_of_not_lt fun before => ?_
      exact (first j).fresh before (List.getElem?_eq_getElem m.isLt) (equal'.trans equal)
  · exact ofList_eq_self (fun entry kept => storable entry (h.mem kept)) h.apart
  · intro f hf x a attached root value recorded path place
    exact Interchange.at?_attachment hf recorded place attached

/-- Two objects whose fields differ in their order and in the sign of a zero, and an integer and a
float of one value. -/
def Json.lookalikes : List Json :=
  [.object [("a", .int 1), ("b", .float (.ofMagnitude false 0))],
    .object [("b", .float (.ofMagnitude true 0)), ("a", .int 1)], .int 1, .float (.ofInt 1)]

/-- A block to which they are attached. -/
def Command.annotated : List (Nat × Command) :=
  [(1, .construct (.node .block 0 0)),
    (0, .edit (.mark (.attach .criteria (.ofList Json.lookalikes)) (some 0)))]

/-- The second object is not kept, and the record of the block repeats the others. -/
theorem AnnotationSet.ofList_keeps_firsts_lookalikes : ∃ entries value,
    ofList Json.lookalikes = ⟨entries⟩ ∧ entries.length = 3 ∧
      (∃! j, (Json.lookalikes.get ⟨1, by decide⟩).Equal (entries.get j)) ∧
      (Command.perform Command.annotated).1.record (some 0) = .ok value ∧
      value.at? [.field "criteria"] = some (.array entries) := by
  have one : (Json.int 1).Storable := .int (by decide)
  have zero (negative : Bool) : (Json.float (.ofMagnitude negative 0)).Storable :=
    .float (by cases negative <;> decide)
  have storable : ∀ r ∈ Json.lookalikes, r.Storable := by
    simp only [Json.lookalikes, List.forall_mem_cons]
    refine ⟨.object ?_ (by decide), .object ?_ (by decide), one, .float (by decide +kernel), nofun⟩
    · exact List.forall_mem_cons.mpr ⟨one, List.forall_mem_singleton.mpr (zero false)⟩
    · exact List.forall_mem_cons.mpr ⟨zero true, List.forall_mem_singleton.mpr one⟩
  obtain ⟨entries, made, ⟨place, -, -, unique, -⟩, -, attached, recorded⟩ :=
    ofList_keeps_firsts storable
  obtain rfl : (ofList Json.lookalikes).records = entries := congrArg records made
  have acyclic := (reached_perform Command.annotated).tended.linked.acyclic
  obtain ⟨value, hvalue⟩ : ∃ value,
      (Command.perform Command.annotated).1.record (some 0) = .ok value :=
    Forest.exists_record (by decide +kernel)
  have attached := attached (Command.perform [(1, .construct (.node .block 0 0))]).1 _ (some 0)
    .criteria rfl
  refine ⟨_, value, made, by decide +kernel, unique _, hvalue, ?_⟩
  exact recorded _ acyclic 0 .criteria attached 0 value hvalue [] (Interchange.mem_places_self _ 0)

end SyntaxForest
