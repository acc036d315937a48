import SyntaxForest.Proofs.JsonEquality
import SyntaxForest.Proofs.NumberTokens
import SyntaxForest.Proofs.Placement
import SyntaxForest.Proofs.Recovery
import SyntaxForest.Proofs.StringTokens
import SyntaxForest.Proofs.WrittenOnce

/-!
# Recorded values of numbers

The value of a token is sought in two tiers, integers of 32 bits and then floats, which treat blanks
differently.  `numbers_are_exact` says what each tier takes.

A node that is made of a number gets the token of this number, and it keeps it
(`Command.token?_resume_numberOfValue`).  The token is passed by in the first tier, also where the
number is an integer, and read back in the second (`Interchange.numberValue_numberToken`).  Nothing
is assumed about the token for this: the shortest decimal was tested with the function that reads
decimals, and what is set out has its value.
-/

namespace SyntaxForest

open NumberToken

namespace Interchange

/-! ## Tokens -/

variable {token : String}

/-- What is not an integer of 32 bits is read as a float, if at all. -/
theorem numberValue_of_int32?_eq_none (unread : int32? token.toList = none) : numberValue token =
    ((binary64? (trimmed token.toList)).map Json.ofBinary64).getD .null := by
  rw [numberValue, unread]
  cases binary64? (trimmed token.toList) <;> rfl

/-- **The value of a token is an integer if the token is one of 32 bits.** -/
theorem numberValue_eq_int_iff {n : Int} : numberValue token = .int n ↔
    IsInteger token.toList n ∧ -2 ^ 31 ≤ n ∧ n < 2 ^ 31 := by
  rw [← int32?_eq_some_iff]
  cases read : int32? token.toList with
  | some m => rw [numberValue, read, Json.int.injEq, Option.some.injEq]
  | none =>
    refine iff_of_false ?_ nofun
    rw [numberValue_of_int32?_eq_none read]
    cases binary64? (trimmed token.toList) with
    | none => nofun
    | some x =>
      rw [Option.map_some, Option.getD_some, Json.ofBinary64]
      split <;> nofun

/-- **Any other value is a finite float or null.**  It is that of the token without the blanks
around it. -/
theorem numberValue_of_ne_int (other : ∀ n, numberValue token ≠ .int n) :
    (∃ x, binary64? (trimmed token.toList) = some x ∧ x.isFinite ∧ numberValue token = .float x) ∨
      (∀ x, binary64? (trimmed token.toList) = some x → ¬ x.isFinite) ∧
        numberValue token = .null := by
  have unread : int32? token.toList = none := by
    refine Option.eq_none_iff_forall_ne_some.mpr fun n read => ?_
    exact other n (numberValue_eq_int_iff.mpr (int32?_eq_some_iff.mp read))
  rw [numberValue_of_int32?_eq_none unread]
  cases binary64? (trimmed token.toList) with
  | none => exact .inr ⟨nofun, rfl⟩
  | some x =>
    by_cases finite : x.isFinite
    · exact .inl ⟨x, rfl, finite, if_pos finite⟩
    · refine .inr ⟨?_, if_neg finite⟩
      rintro _ ⟨⟩
      exact finite

/-- A finite number is read back from its token: there is a point or a power of ten in the token, so
it is no integer, and no blank around it. -/
theorem numberValue_of_isFinite {x : Binary64} (finite : x.isFinite) :
    numberValue (numberToken x) = .float x := by
  have plus : numberLayout.plus = [] ∨ numberLayout.plus = ['+'] := .inl rfl
  have token : (numberToken x).toList = numberLayout.finite x := by
    rw [numberToken, Binary64.isNaN_of_isFinite finite, finite]
    exact String.toList_ofList
  have unread : int32? (numberToken x).toList = none := by
    rw [token, int32?, int?_finite, Option.filter_none]
  rw [numberValue_of_int32?_eq_none unread, token, Layout.trimmed_finite plus,
    binary64?_finite plus finite]
  exact if_pos finite

/-- **The value of a token that was made of a number is the number**, if this is finite. -/
theorem numberValue_numberToken (x : Binary64) :
    numberValue (numberToken x) = .ofBinary64 x := by
  by_cases finite : x.isFinite
  · rw [numberValue_of_isFinite finite, Json.ofBinary64, if_pos finite]
  · have named : numberToken x ∈ ["NaN", "-inf", "inf"] := by
      rw [numberToken]
      split
      · exact List.mem_cons_self
      · simp only [finite, Bool.not_false, if_true]
        split <;> simp
    have names : ∀ token ∈ ["NaN", "-inf", "inf"], int32? token.toList = none ∧
        ∃ y, binary64? (trimmed token.toList) = some y ∧ ¬ y.isFinite := by
      simp only [List.forall_mem_cons]
      exact ⟨⟨by decide +kernel, _, rfl, by decide +kernel⟩,
        ⟨by decide +kernel, _, rfl, by decide +kernel⟩,
        ⟨by decide +kernel, _, rfl, by decide +kernel⟩, nofun⟩
    obtain ⟨unread, y, read, infinite⟩ := names _ named
    rw [numberValue_of_int32?_eq_none unread, read, Json.ofBinary64, if_neg finite]
    exact if_neg infinite

end Interchange

/-! ## Records -/

namespace Forest

variable {f : Forest} {x : NodeIndex} {token : String}

theorem exists_number_of_token? (h : f.token? (some x) = some token) :
    ∃ c, f.contents? (some x) = some (.numberLiteral c) ∧ c.token = some token := by
  rw [token?] at h
  split at h
  · next c hc => exact ⟨c, hc, h⟩
  · cases h

/-- A number is recorded with its value and its token. -/
theorem record_number (h : f.token? (some x) = some token) : f.record (some x) = .ok (.object (
    [("type", .string Kind.numberLiteral.recordType), ("value", Interchange.numberValue token),
      ("raw", .string token)] ++ Interchange.trailer ((f.record? (some x)).getD {}))) := by
  obtain ⟨c, hc, htoken⟩ := exists_number_of_token? h
  refine f.record_leaf hc rfl rfl ?_
  simp only [Interchange.ofContents, htoken]
  rfl

/-- A node with the token of a number is recorded with this number, if it is finite. -/
theorem exists_record_of_token? {y : Binary64} (h : f.token? (some x) = some (numberToken y)) :
    ∃ value, f.record (some x) = .ok value ∧
      value.at? [.field "value"] = some (if y.isFinite then .float y else .null) := by
  refine ⟨_, record_number h, ?_⟩
  rw [Interchange.numberValue_numberToken, Json.ofBinary64]
  simp [Json.at?, List.lookup_cons]

end Forest

/-- Wherever the record of a number stands, the value of its token stands in it. -/
theorem Interchange.at?_number {f : Forest} (hf : f.Acyclic) {root x : NodeIndex} {value : Json}
    (recorded : f.record (some root) = .ok value) {path : List Json.Step}
    (place : (path, x) ∈ places f root) {token : String} (h : f.token? (some x) = some token) :
    value.at? (path ++ [.field "value"]) = some (numberValue token) := by
  obtain ⟨c, hc, htoken⟩ := Forest.exists_number_of_token? h
  obtain ⟨look, own, hat, filled⟩ := exists_filled_of_place hf recorded place
  rw [formAt_of_contents? hc] at filled
  have entry : ("value", .value (numberValue token)) ∈ form (.numberLiteral c) := by
    simp [form, htoken]
  obtain ⟨found, hfound, rfl, -⟩ := filled.exists_lookup (nodup_form _) entry
  rw [Json.at?_append, hat, Option.bind_some, Json.at?, List.lookup_append, hfound, Option.some_or,
    Option.bind_some, Json.at?_nil]

/-! ## Nodes that are made of numbers -/

namespace Forest

/-- A new node holds what it was made of, in any forest. -/
theorem contents?_construct_size (f : Forest) (id : Nat) (c : Construction) :
    (f.construct id c).contents? (some f.size) = c.contents? := by
  rw [construct, contents?, header?_push, if_pos rfl]
  cases hc : c.contents? with
  | none => rfl
  | some contents =>
    have kind := Construction.kind_of_contents? hc
    simp [held?, nextEntry, pools_push, Pools.get?_push, kind]

theorem token?_numberOfValue (f : Forest) (id : Nat) (x : Binary64) :
    (f.construct id (.numberOfValue x)).token? (some f.size) = some (numberToken x) := by
  rw [token?, contents?_construct_size]
  rfl

end Forest

/-- A node that was made of a number keeps its token. -/
theorem Command.token?_resume_numberOfValue {f : Forest} (hf : f.Linked) (id : Nat) (x : Binary64)
    {steps : List (Nat × Command)} (stays : ∀ step ∈ steps, step.2 ≠ .clear) :
    (Command.resume f ((id, .construct (.numberOfValue x)) :: steps)).token? (some f.size) =
      some (numberToken x) := by
  have made := f.contents?_construct_size id (.numberOfValue x)
  have carries := carries_resume (hf.construct id _) stays (Forest.contains_of_contents? made)
  exact carries.token? (f.token?_numberOfValue id x)

/-- **Numbers are recorded exactly.**  The value of a token is an integer if and only if the token
is a decimal integer of 32 bits, with one sign in front or none and with nothing else around it;
then it is this integer.  Any other token has as its value the float that it is without the blanks
around it, if this is finite, and else `null`.  A node that is made of a number, in any forest, is
recorded with just this number if it is finite, and else with `null`.  In forests that were reached
this stays so, wherever the node comes to stand and whatever is done later, as long as the forest is
not cleared. -/
theorem numbers_are_exact :
    (∀ token n, Interchange.numberValue token = .int n ↔
      IsInteger token.toList n ∧ -2 ^ 31 ≤ n ∧ n ≤ 2 ^ 31 - 1) ∧
    (∀ token, (∀ n, Interchange.numberValue token ≠ .int n) →
      (∃ x, binary64? (trimmed token.toList) = some x ∧ x.isFinite ∧
        Interchange.numberValue token = .float x) ∨
      (∀ x, binary64? (trimmed token.toList) = some x → ¬ x.isFinite) ∧
        Interchange.numberValue token = .null) ∧
    (∀ (f : Forest) (id : Nat) (x : Binary64), ∃ value,
      (f.construct id (.numberOfValue x)).record (some f.size) = .ok value ∧
      value.at? [.field "value"] = some (if x.isFinite then .float x else .null)) ∧
    ∀ f loose, Reached f loose → ∀ (id : Nat) (x : Binary64) (steps : List (Nat × Command)),
      (∀ step ∈ steps, step.2 ≠ .clear) →
      ∀ g, g = Command.resume f ((id, .construct (.numberOfValue x)) :: steps) →
        (∃ value, g.record (some f.size) = .ok value ∧
          value.at? [.field "value"] = some (if x.isFinite then .float x else .null)) ∧
        ∀ root value, g.record (some root) = .ok value →
          ∀ path, (path, f.size) ∈ Interchange.places g root →
            value.at? (path ++ [.field "value"]) =
              some (if x.isFinite then .float x else .null) := by
  refine ⟨fun token n => ?_, fun token => Interchange.numberValue_of_ne_int, ?_, ?_⟩
  · rw [Interchange.numberValue_eq_int_iff, Int.le_sub_one_iff]
  · intro f id x
    exact Forest.exists_record_of_token? (f.token?_numberOfValue id x)
  · intro f loose h id x steps stays g hg
    have hf := h.tended.linked
    have acyclic : g.Acyclic := hg ▸ (Command.linked_resume hf _).acyclic
    have token : g.token? (some f.size) = some (numberToken x) :=
      hg ▸ Command.token?_resume_numberOfValue hf id x stays
    refine ⟨Forest.exists_record_of_token? token, fun root value recorded path place => ?_⟩
    rw [Interchange.at?_number acyclic recorded place token, Interchange.numberValue_numberToken]
    rfl

/-- A statement without an expression. -/
def Command.unstated : List (Nat × Command) := [(1, .construct (.node .expressionStatement 0 0))]

/-- A number that is put into it. -/
def Command.stated (x : Binary64) : List (Nat × Command) :=
  [(2, .construct (.numberOfValue x)), (0, .edit (.setChild .expression (some 0) (some 1)))]

/-- Minus zero keeps its sign in the record of the statement, and the least integer of 32 bits may
have zeros in front. -/
theorem numbers_are_exact_stated : ∃ value,
    (Command.resume (Command.perform Command.unstated).1
      (Command.stated (.ofMagnitude true 0))).record (some 0) = .ok value ∧
    value.at? [.field "expression", .field "value"] = some (.float (.ofMagnitude true 0)) ∧
    Interchange.numberValue "-002147483648" = .int (-2147483648) := by
  obtain ⟨integers, -, -, stored⟩ := numbers_are_exact
  have stays : ∀ step ∈ [((0 : Nat), Command.edit (.setChild .expression (some 0) (some 1)))],
      step.2 ≠ .clear := by simp
  obtain ⟨-, valued⟩ := stored _ _ (reached_perform Command.unstated) 2 (.ofMagnitude true 0) _
    stays _ rfl
  obtain ⟨value, recorded⟩ : ∃ value, (Command.resume (Command.perform Command.unstated).1
      (Command.stated (.ofMagnitude true 0))).record (some 0) = .ok value :=
    Forest.exists_record (by decide +kernel)
  have spelled : "-002147483648".toList =
      '-' :: ['0', '0', '2', '1', '4', '7', '4', '8', '3', '6', '4', '8'] := by decide +kernel
  have integer : IsInteger "-002147483648".toList (-2147483648) := by
    rw [spelled]
    exact .minus ⟨by simp, by simp, by simp [Nat.ofDigits_cons]⟩
  exact ⟨value, recorded, valued 0 value recorded [.field "expression"] (by decide +kernel),
    (integers "-002147483648" (-2147483648)).mpr ⟨integer, by decide, by decide⟩⟩

end SyntaxForest
