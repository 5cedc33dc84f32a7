import RouteDocs.Proofs.Generate
import RouteDocs.Proofs.Region

/-!
# The components of a document

The components are the value under their key, passed through whatever it is. An empty object stands
in for a value that is not there, for one that is not understood and for null. So they are an object
unless a boolean, a number, a string or a sequence is declared.

## Main definitions

* `Value.bare`: a value without the tags around it.
* `Components.Declared`: the value that a source text declares its components to be.

## Main statements

* `generate_components`: what the components of a document are, and when they are an object.
-/

namespace RouteDocs

open Yaml

/-- The value is an object. -/
def Json.isObject : Json → Bool
  | .object _ => true
  | _ => false

namespace Yaml.Value

/-- The value inside its tags. -/
def bare : Value → Value
  | .tagged _ v => bare v
  | v => v

/-- A null or a mapping, whatever tags it has. -/
def IsMappingOrNull (v : Value) : Prop := v.bare = .null ∨ ∃ es : Entries, v.bare = .mapping es

theorem isNull_iff (v : Value) : v.isNull = true ↔ v.bare = .null := by
  fun_induction Value.isNull v with
  | case1 => simp [bare]
  | case2 tag v ih => simpa [bare] using ih
  | case3 v hnull htagged => cases v <;> simp_all [bare]

theorem isObject_numberJson (n : Number) : (numberJson n).isObject = false := by
  unfold numberJson
  split
  · rfl
  · split <;> rfl

/-- Only a mapping gives an object. -/
theorem isObject_toJson_iff (v : Value) :
    v.toJson.isObject = true ↔ ∃ es : Entries, v.bare = .mapping es := by
  fun_induction bare v with
  | case1 tag v ih => simpa [toJson] using ih
  | case2 v htagged =>
    cases v with
    | null | bool | string | sequence => simp [toJson, Json.isObject]
    | number n => simp [toJson, isObject_numberJson]
    | mapping es => simp [toJson, Json.isObject, Json.ofMembers, Json.ofDict]
    | tagged tag v => exact absurd rfl (htagged tag v)

end Yaml.Value

namespace Components

/-- The source text has a components comment, its text is valid YAML in which the merges can be
resolved, and then it is a mapping with `w` under the key of the components. -/
def Declared (source : String) (w : Value) : Prop :=
  ∃ (text : List Char) (v : Value) (es : Entries), region? source = some text ∧
    Value.read? (Text.dedent text) = some v ∧ v.merge? = some (.mapping es) ∧
    es.field? "components" = some w

variable {source : String} {w w' : Value}

theorem Declared.unique (h : Declared source w) (h' : Declared source w') : w = w' := by
  obtain ⟨text, v, es, htext, hread, hmerge, hw⟩ := h
  obtain ⟨_, _, _, htext', hread', hmerge', hw'⟩ := h'
  cases htext.symm.trans htext'
  cases hread.symm.trans hread'
  cases hmerge.symm.trans hmerge'
  exact Option.some.inj (hw.symm.trans hw')

/-- A declared value is passed through, unless it is null. -/
theorem parse_of_declared (h : Declared source w) :
    parse source = { result := if w.isNull then .emptyObject else w.toJson } := by
  obtain ⟨text, v, es, htext, hread, hmerge, hw⟩ := h
  have hes : Region.components.read text = _ := Region.read_of_merge?_eq_some hread hmerge
  simp only [parse, htext, hes, Region.holding, Option.map_some, Option.getD_some, ofEntries, hw]

/-- Where nothing is declared the components are empty. -/
theorem result_parse_of_forall_not (h : ∀ w, ¬Declared source w) :
    (parse source).result = .emptyObject := by
  unfold parse
  cases htext : region? source with
  | none => rfl
  | some text =>
    cases hes : (Region.components.read text).result with
    | none => simp only [hes, Option.map_none, Option.getD_none]
    | some es =>
      simp only [hes, Option.map_some, Option.getD_some]
      obtain ⟨v, w, hread, hmerge, rfl | ⟨-, rfl⟩⟩ := Region.exists_of_result_read hes
      · cases hw : es.field? "components" with
        | none => simp [ofEntries, hw]
        | some w => exact absurd ⟨text, v, es, htext, hread, hmerge, hw⟩ (h w)
      · rfl

/-- What is read is an object exactly if a declared value is null or a mapping. -/
theorem isObject_result_parse_iff (source : String) :
    (parse source).result.isObject = true ↔ ∀ w, Declared source w → w.IsMappingOrNull := by
  by_cases h : ∃ w, Declared source w
  · obtain ⟨w, hw⟩ := h
    have hforall : (∀ w', Declared source w' → w'.IsMappingOrNull) ↔ w.IsMappingOrNull :=
      ⟨fun h => h w hw, fun h w' hw' => hw.unique hw' ▸ h⟩
    rw [hforall, parse_of_declared hw]
    by_cases hnull : w.isNull = true
    · have hbare := (Value.isNull_iff w).1 hnull
      simp [hnull, Value.IsMappingOrNull, hbare, Json.isObject, Json.emptyObject]
    · have hbare : w.bare ≠ .null := fun h => hnull ((Value.isNull_iff w).2 h)
      simp [hnull, Value.IsMappingOrNull, hbare, Value.isObject_toJson_iff]
  · have hnot : ∀ w, ¬Declared source w := fun w hw => h ⟨w, hw⟩
    rw [result_parse_of_forall_not hnot]
    exact iff_of_true rfl fun w hw => absurd hw (hnot w)

end Components

open Components

/-- The components of every document that is generated. What is declared is passed through; an empty
object stands for null, and for components that are not declared: there is no comment with them, its
text is not valid YAML or has a merge that cannot be resolved, it is not a mapping, or it lacks the
key. So the components are an object exactly if nothing but a null or a mapping is declared. -/
theorem generate_components {settings : Settings} {source : String} {d : Document}
    (h : (generate settings source).result = .ok d) :
    (∀ w, Declared source w → w.bare ≠ .null → d.components = w.toJson) ∧
    ((∀ w, Declared source w → w.bare = .null) → d.components = .emptyObject) ∧
    (d.components.isObject = true ↔ ∀ w, Declared source w → w.IsMappingOrNull) := by
  have hcomponents : d.components = (parse source).result :=
    ((generate_assembles settings source).2.2 d (generate settings source).log
      (by rw [← h])).2.1
  rw [hcomponents, isObject_result_parse_iff]
  refine ⟨fun w hw hbare => ?_, fun hall => ?_, Iff.rfl⟩
  · have hnull : w.isNull = false := by
      rw [← Bool.not_eq_true, Value.isNull_iff]
      exact hbare
    rw [parse_of_declared hw, hnull]
    rfl
  · by_cases hdeclared : ∃ w, Declared source w
    · obtain ⟨w, hw⟩ := hdeclared
      rw [parse_of_declared hw, (Value.isNull_iff w).2 (hall w hw)]
      rfl
    · exact result_parse_of_forall_not fun w hw => hdeclared ⟨w, hw⟩

/-- A text with a mapping for its components. -/
def schemasSource : String := "--[[\ncomponents: {schemas: {}}\n--]]\n"

theorem generate_components_schemas :
    ∃ d, (generate {} schemasSource).result = .ok d ∧
      (d.components.isObject = true ↔ ∀ w, Declared schemasSource w → w.IsMappingOrNull) := by
  have hsome : (generate {} schemasSource).result.toOption.isSome = true := by decide +kernel
  cases hd : (generate {} schemasSource).result with
  | error e => simp [hd, Except.toOption] at hsome
  | ok d => exact ⟨d, rfl, (generate_components hd).2.2⟩

/-- A text with a number for its components. -/
def numberSource : String := "--[[\ncomponents: 5\n--]]\n"

theorem generate_components_not_object :
    ∃ d, (generate {} numberSource).result = .ok d ∧ d.components.isObject = false := by
  have hfalse : (generate {} numberSource).result.toOption.map (·.components.isObject) =
      some false := by decide +kernel
  cases hd : (generate {} numberSource).result with
  | error e => simp [hd, Except.toOption] at hfalse
  | ok d => exact ⟨d, rfl, by simpa [hd, Except.toOption] using hfalse⟩

end RouteDocs
