import RouteDocs.Proofs.Components
import RouteDocs.Proofs.Route.Annotation
import RouteDocs.Proofs.Yaml.Value.Json

/-!
# Responses that document nothing

Null, false, zero and whatever is empty document nothing, and an empty object is stored for them.
This is decided before the content becomes JSON. The two classifications agree on all values but
the numbers that JSON does not have, the infinite ones and those that are undefined: they are not
among the contents that document nothing, but become null.

## Main definitions

* `Json.isFalsy`: the JSON values that document nothing.
* `Value.IsNonFinite`: a number that JSON does not have, inside any tags.
* `Annotation.Documents`: the content that a comment has for a code.
* `Annotation.Stores`: the response for a content.

## Main statements

* `Value.isFalsy_toJson_iff`: where the two classifications agree.
* `Annotation.get?_responses_parse_iff`: the responses of a comment, and which of them document
  nothing without being an empty object.
-/

namespace RouteDocs

open Yaml

/-- Null, false, zero and whatever is empty. -/
def Json.isFalsy : Json → Bool
  | .null => true
  | .bool b => !b
  | .number n => n.isZero
  | .string s => s.isEmpty
  | .array items => items.isEmpty
  | .object members => members.isEmpty

/-! ## Before and after the conversion -/

/-- Neither zero is infinite or undefined. -/
theorem Number.isFinite_of_beq_zero {x : Float} (h : (x == 0) = true) : x.isFinite = true := by
  have hbeq : (x == 0) = (x.toModel.unpack.compare (.zero .positive) == some .eq) := rfl
  have hfinite : x.isFinite = x.toModel.unpack.isFinite := rfl
  rw [hbeq, beq_iff_eq, compare_eq_iff] at h
  rw [hfinite]
  generalize x.toModel.unpack = u at h
  cases u with
  | zero | finite => rfl
  | notANumber | infinity => cases h.1

namespace Yaml.Value

/-- Inside its tags the value is a number that is infinite or undefined. -/
def IsNonFinite (v : Value) : Prop := ∃ x : Float, v.bare = .number (.float x) ∧ x.isFinite = false

theorem isFalsy_bare (v : Value) : v.bare.isFalsy = v.isFalsy := by
  fun_induction bare v with
  | case1 tag v ih => rw [ih, isFalsy]
  | case2 v htagged => rfl

theorem toJson_bare (v : Value) : v.bare.toJson = v.toJson := by
  fun_induction bare v with
  | case1 tag v ih => rw [ih, toJson]
  | case2 v htagged => rfl

/-- A number that JSON does not have becomes null. -/
theorem IsNonFinite.toJson_eq_null {v : Value} (h : v.IsNonFinite) : v.toJson = .null := by
  obtain ⟨x, hx, hfinite⟩ := h
  rw [← toJson_bare, hx, toJson, numberJson, hfinite]
  rfl

/-- As it is, such a number is not among what documents nothing. -/
theorem IsNonFinite.isFalsy_eq_false {v : Value} (h : v.IsNonFinite) : v.isFalsy = false := by
  obtain ⟨x, hx, hfinite⟩ := h
  rw [← isFalsy_bare, hx, isFalsy, Number.isZero, Bool.eq_false_iff]
  intro hzero
  simp [Number.isFinite_of_beq_zero hzero] at hfinite

theorem isFalsy_numberJson_iff {n : Number} : (numberJson n).isFalsy = true ↔
    n.isZero = true ∨ ∃ x : Float, n = .float x ∧ x.isFinite = false := by
  cases n with
  | whole n => simp [numberJson, Json.isFalsy]
  | float x => cases hfinite : x.isFinite <;> simp [numberJson, hfinite, Json.isFalsy]

/-- In JSON the same values document nothing as before, and the numbers that JSON does not have. -/
theorem isFalsy_toJson_iff (v : Value) :
    v.toJson.isFalsy = true ↔ v.isFalsy = true ∨ v.IsNonFinite := by
  unfold IsNonFinite
  fun_induction bare v with
  | case1 tag v ih => simpa [toJson, isFalsy] using ih
  | case2 v htagged =>
    cases v with
    | null | bool | string => simp [toJson, Json.isFalsy, isFalsy]
    | number n => simp [toJson, isFalsy, isFalsy_numberJson_iff]
    | sequence items => simp [toJson, Json.isFalsy, isFalsy, itemsToJson_eq_map]
    | mapping es =>
      simp [toJson, Json.isFalsy, isFalsy, Json.ofMembers, Json.ofDict, entriesToJson_eq_map,
        Dict.toList_ofList_eq_nil_iff]
    | tagged tag v => exact absurd rfl (htagged tag v)

end Yaml.Value

/-! ## The responses of a comment -/

namespace Annotation

/-- The comment has this content for a code: it stands under the last key that gives the code. -/
def Documents (comment code : String) (content : Value) : Prop :=
  ∃ es codes : Entries, Loads comment (.mapping es) ∧
    es.field? "responses" = some (.mapping codes) ∧
    Dict.lastValue? (codes.map fun e => (e.1.keyString, e.2)) code = some content

/-- The response for a content: an empty object for what documents nothing in JSON, but null for the
numbers that JSON does not have. -/
inductive Stores (content : Value) : Json → Prop
  | nonFinite (h : content.IsNonFinite) : Stores content .null
  | falsy (hfinite : ¬content.IsNonFinite) (h : content.toJson.isFalsy = true) :
    Stores content .emptyObject
  | other (h : content.toJson.isFalsy = false) : Stores content content.toJson

variable {settings : Settings} {comment code : String} {content : Value} {j : Json}

theorem stores_iff : Stores content j ↔ responseOf content = j := by
  have hfalsy := Value.isFalsy_toJson_iff content
  constructor
  · rintro (h | ⟨hfinite, h⟩ | h)
    · rw [responseOf, if_neg (by simp [h.isFalsy_eq_false]), h.toJson_eq_null]
    · exact if_pos ((hfalsy.1 h).resolve_right hfinite)
    · exact if_neg fun hcontent => by simp [hfalsy.2 (.inl hcontent)] at h
  · rintro rfl
    unfold responseOf
    split
    next h =>
      refine .falsy (fun hfinite => ?_) (hfalsy.2 (.inl h))
      simp [hfinite.isFalsy_eq_false] at h
    next h =>
      by_cases hfinite : content.IsNonFinite
      · rw [hfinite.toJson_eq_null]
        exact .nonFinite hfinite
      · exact .other (by simpa [h, hfinite] using hfalsy)

/-- Nothing but a number that JSON does not have is stored as something else than an empty object
that documents nothing. -/
theorem Stores.isFalsy_and_ne_iff (h : Stores content j) :
    j.isFalsy = true ∧ j ≠ .emptyObject ↔ content.IsNonFinite := by
  cases h with
  | nonFinite hfinite => exact iff_of_true ⟨rfl, fun h => by cases h⟩ hfinite
  | falsy hfinite => exact iff_of_false (fun h => h.2 rfl) hfinite
  | other hfalsy =>
    refine iff_of_false (fun h => by simp [hfalsy] at h) fun hfinite => ?_
    rw [hfinite.toJson_eq_null] at hfalsy
    cases hfalsy

/-- What stands under a code becomes its response. -/
theorem get?_responsesOf_eq_some_iff {es : Entries} :
    (responsesOf es).result.get? code = some j ↔ ∃ codes : Entries,
      es.field? "responses" = some (.mapping codes) ∧ ∃ content,
        Dict.lastValue? (codes.map fun e => (e.1.keyString, e.2)) code = some content ∧
        responseOf content = j := by
  rcases responsesOf_cases es with ⟨codes, hcodes, h⟩ | ⟨hnot, h | h⟩
  · have hmap := Dict.lastValue?_map responseOf (codes.map fun e => (e.1.keyString, e.2)) code
    rw [List.map_map] at hmap
    simp only [h, hcodes, Dict.get?_ofList, Option.some.injEq, Value.mapping.injEq,
      exists_eq_left', ← Option.map_eq_some_iff]
    rw [← hmap]
    rfl
  all_goals simp [h, hnot]

theorem get?_responses_parse_eq_some_iff :
    (parse settings comment).result.responses.get? code = some j ↔
      ∃ content, Documents comment code content ∧ responseOf content = j := by
  by_cases hloads : ∃ es : Entries, Loads comment (.mapping es)
  · obtain ⟨es, hes⟩ := hloads
    have hresponses : (parse settings comment).result.responses = (responsesOf es).result := by
      rw [parse_of_loads hes, ofEntries]
    rw [hresponses, get?_responsesOf_eq_some_iff]
    constructor
    · rintro ⟨codes, hcodes, content, hcontent, hj⟩
      exact ⟨content, ⟨es, codes, hes, hcodes, hcontent⟩, hj⟩
    · rintro ⟨content, ⟨es', codes, hes', hcodes, hcontent⟩, hj⟩
      cases hes.unique hes'
      exact ⟨codes, hcodes, content, hcontent, hj⟩
  · rw [result_parse_of_forall_not fun es hes => hloads ⟨es, hes⟩]
    refine iff_of_false (fun h => by cases h) ?_
    rintro ⟨content, ⟨es, codes, hes, -⟩, -⟩
    exact hloads ⟨es, hes⟩

/-- The responses of every comment. Under each code of its responses is what the content documents,
or an empty object if in JSON it would document nothing. The exception are numbers that JSON does
not have: they, and nothing else, give a response that documents nothing and is no empty object. -/
theorem get?_responses_parse_iff (settings : Settings) (comment code : String) :
    (∀ j, (parse settings comment).result.responses.get? code = some j ↔
      ∃ content, Documents comment code content ∧ Stores content j) ∧
    ((∃ j, (parse settings comment).result.responses.get? code = some j ∧
        j.isFalsy = true ∧ j ≠ .emptyObject) ↔
      ∃ content, Documents comment code content ∧ content.IsNonFinite) := by
  have hstored : ∀ j, (parse settings comment).result.responses.get? code = some j ↔
      ∃ content, Documents comment code content ∧ Stores content j := by
    intro j
    simp only [get?_responses_parse_eq_some_iff, stores_iff]
  refine ⟨hstored, ?_⟩
  constructor
  · rintro ⟨j, hj, hfalsy⟩
    obtain ⟨content, hcontent, hstores⟩ := (hstored j).1 hj
    exact ⟨content, hcontent, hstores.isFalsy_and_ne_iff.1 hfalsy⟩
  · rintro ⟨content, hcontent, hfinite⟩
    have hstores : Stores content .null := .nonFinite hfinite
    exact ⟨.null, (hstored _).2 ⟨content, hcontent, hstores⟩, hstores.isFalsy_and_ne_iff.2 hfinite⟩

/-- An undefined number as a response. -/
def undefinedResponse : String := "responses: {200: .nan}\n"

theorem get?_responses_parse_undefinedResponse :
    ∃ j, (parse {} undefinedResponse).result.responses.get? "200" = some j ∧
      j.isFalsy = true ∧ j ≠ .emptyObject := by
  have hstored : ((parse {} undefinedResponse).result.responses.get? "200").map
      (fun j => j.isFalsy && !j.isObject) = some true := by decide +kernel
  obtain ⟨j, hj, hfalsy⟩ := Option.map_eq_some_iff.1 hstored
  simp only [Bool.and_eq_true, Bool.not_eq_true'] at hfalsy
  refine ⟨j, hj, hfalsy.1, ?_⟩
  rintro rfl
  cases hfalsy.2

end Annotation

end RouteDocs
