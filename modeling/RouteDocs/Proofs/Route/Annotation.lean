import RouteDocs.Proofs.Dict
import RouteDocs.Proofs.Region
import RouteDocs.Route.Annotation

/-!
# What a comment documents, whatever its text is

A comment is given up at one of several stages: its text is not valid YAML, a merge in it cannot be
resolved, or its value is neither a mapping nor null. Then it documents nothing, and this is
reported. If only the responses of a mapping are of the wrong kind, then only they are left out. So
nothing is reported twice, and nothing is kept of what is given up.

## Main definitions

* `Annotation.Loads`: the value of a comment.
* `Annotation.Outcome`: the ways in which a comment is read.
* `Entries.without`: the entries of a mapping except for one field.
* `Annotation.Degrades`: what is left of a comment, by what is reported.

## Main statements

* `Annotation.outcome_parse`: every comment is read in one of these ways.
* `Annotation.parse_degrades`: what is left of every comment.
-/

namespace RouteDocs

open Yaml

/-! ## Leaving out a field -/

namespace Yaml.Entries

/-- The entries without the field of this name. -/
def without (es : Entries) (name : String) : Entries := es.filter fun e => !e.1.same (.string name)

theorem field?_without_self (es : Entries) (name : String) :
    (es.without name).field? name = none := by
  refine get?_eq_none_iff.2 fun e he => ?_
  simpa using (List.mem_filter.1 he).2

/-- The other fields stay. -/
theorem field?_without_of_ne (es : Entries) {name other : String} (h : other ≠ name) :
    (es.without name).field? other = es.field? other := by
  have hkept : ∀ e : Value × Value, e.1.same (.string other) = true →
      (!e.1.same (.string name)) = true := by
    intro e he
    simp [Value.same_string_right_iff.1 he, Value.same, h]
  have hfound : (fun e : Value × Value =>
      decide ((!e.1.same (.string name)) = true ∧ e.1.same (.string other) = true)) =
      fun e => e.1.same (.string other) := by
    funext e
    simpa using hkept e
  simp only [field?, get?, without, List.find?_filter, hfound]

end Yaml.Entries

namespace Annotation

/-! ## The ways to read a comment -/

/-- The text of the comment is valid YAML in which the merges can be resolved, and `v` is its value
then. -/
def Loads (comment : String) (v : Value) : Prop :=
  ∃ u, Value.read? (Text.dedent comment.toList) = some u ∧ u.merge? = some v

theorem Loads.unique {comment : String} {v w : Value} (hv : Loads comment v)
    (hw : Loads comment w) : v = w := by
  obtain ⟨u, hread, hmerge⟩ := hv
  obtain ⟨u', hread', hmerge'⟩ := hw
  cases hread.symm.trans hread'
  exact Option.some.inj (hmerge.symm.trans hmerge')

/-- The ways in which a comment is read. -/
inductive Outcome (settings : Settings) (comment : String) : Logged Annotation → Prop
  | unparseable (h : Value.read? (Text.dedent comment.toList) = none) :
    Outcome settings comment ⟨{}, [.unparseable .routeComment]⟩
  | unresolvable {u : Value} (h : Value.read? (Text.dedent comment.toList) = some u)
      (hmerge : u.merge? = none) :
    Outcome settings comment ⟨{}, [.unresolvableMerge .routeComment]⟩
  | notMapping {v : Value} (h : Loads comment v) (hnull : v ≠ .null)
      (hmapping : ∀ es : Entries, v ≠ .mapping es) :
    Outcome settings comment ⟨{}, [.notMapping .routeComment]⟩
  | empty (h : Loads comment .null) : Outcome settings comment ⟨{}, []⟩
  | mapping {es : Entries} (h : Loads comment (.mapping es)) :
    Outcome settings comment (ofEntries settings.placeholder es)

/-- Every comment is read in one of these ways. -/
theorem outcome_parse (settings : Settings) (comment : String) :
    Outcome settings comment (parse settings comment) := by
  cases hread : Value.read? (Text.dedent comment.toList) with
  | none =>
    have hparse : parse settings comment = ⟨{}, [.unparseable .routeComment]⟩ := by
      simp [parse, Region.read, hread]
    exact hparse ▸ .unparseable hread
  | some u =>
    cases hmerge : u.merge? with
    | none =>
      have hparse : parse settings comment = ⟨{}, [.unresolvableMerge .routeComment]⟩ := by
        simp [parse, Region.read_of_merge?_eq_none hread hmerge]
      exact hparse ▸ .unresolvable hread hmerge
    | some v =>
      have hloads : Loads comment v := ⟨u, hread, hmerge⟩
      rw [parse, Region.read_of_merge?_eq_some hread hmerge]
      cases v with
      | mapping es => exact .mapping hloads
      | null => exact .empty hloads
      | bool | number | string | sequence | tagged => exact .notMapping hloads (by simp) (by simp)

/-- A mapping is read by its entries. -/
theorem parse_of_loads {settings : Settings} {comment : String} {es : Entries}
    (h : Loads comment (.mapping es)) :
    parse settings comment = ofEntries settings.placeholder es := by
  obtain ⟨u, hread, hmerge⟩ := h
  rw [parse, Region.read_of_merge?_eq_some hread hmerge]
  rfl

/-- Whatever is not a mapping documents nothing. -/
theorem result_parse_of_forall_not {settings : Settings} {comment : String}
    (h : ∀ es : Entries, ¬Loads comment (.mapping es)) : (parse settings comment).result = {} := by
  have houtcome := outcome_parse settings comment
  generalize parse settings comment = a at houtcome ⊢
  cases houtcome with
  | unparseable | unresolvable | notMapping | empty => rfl
  | mapping hes => exact absurd hes (h _)

/-! ## The parts of an annotation -/

/-- A request body has the placeholder under its content type, and nothing else. -/
theorem toList_requestBodyOf (placeholder : MediaType) (contentType : Option String) :
    (requestBodyOf placeholder contentType).toList =
      contentType.toList.map fun t => (t, placeholder) := by
  cases contentType <;> rfl

theorem requestBodyOf_eq_empty_iff {placeholder : MediaType} {contentType : Option String} :
    requestBodyOf placeholder contentType = .empty ↔ contentType = none := by
  constructor
  · intro h
    have htoList := toList_requestBodyOf placeholder contentType
    rw [h] at htoList
    simpa [Dict.empty] using htoList
  · rintro rfl
    rfl

/-- What stands under the responses is a mapping, null or nothing, or else it is reported. -/
theorem responsesOf_cases (es : Entries) :
    (∃ codes : Entries, es.field? "responses" = some (.mapping codes) ∧ responsesOf es =
        ⟨.ofList (codes.map fun e => (e.1.keyString, responseOf e.2)), []⟩) ∨
      (∀ codes : Entries, es.field? "responses" ≠ some (.mapping codes)) ∧
        (responsesOf es = ⟨.empty, []⟩ ∨ responsesOf es = ⟨.empty, [.responsesNotMapping]⟩) := by
  unfold responsesOf
  split
  next codes h => exact .inl ⟨codes, h, rfl⟩
  next h => exact .inr ⟨fun codes => by simp [h], .inl rfl⟩
  next h => exact .inr ⟨fun codes => by simp [h], .inl rfl⟩
  next v hmapping _ h =>
    exact .inr ⟨fun codes heq => hmapping codes (Option.some.inj (h.symm.trans heq)), .inr rfl⟩

/-- There are responses for the codes of the mapping under the field, and for no others. -/
theorem isSome_get?_responsesOf_iff (es : Entries) (code : String) :
    ((responsesOf es).result.get? code).isSome ↔
      ∃ codes : Entries, es.field? "responses" = some (.mapping codes) ∧
        ∃ e ∈ codes, e.1.keyString = code := by
  rcases responsesOf_cases es with ⟨codes, hcodes, h⟩ | ⟨hnot, h | h⟩
  · rw [h, hcodes, Dict.get?_ofList, Dict.isSome_lastValue?_iff]
    simp
  all_goals simp [h, hnot]

/-- Without its responses a mapping documents the rest, and nothing is reported. -/
theorem ofEntries_without_responses (placeholder : MediaType) (es : Entries) :
    ofEntries placeholder (es.without "responses") =
      ⟨{ (ofEntries placeholder es).result with responses := .empty }, []⟩ := by
  have hdescription := es.field?_without_of_ne (show "description" ≠ "responses" by decide)
  have hcontentType := es.field?_without_of_ne (show "bodyContentType" ≠ "responses" by decide)
  simp only [ofEntries, descriptionOf, bodyContentTypeOf, responsesOf, hdescription, hcontentType,
    es.field?_without_self]

/-! ## What is left of a comment -/

/-- The warnings about a comment that is given up as a whole. -/
def givingUp : List Warning :=
  [.unparseable .routeComment, .unresolvableMerge .routeComment, .notMapping .routeComment]

/-- What is left of a comment that is read as `a`, by what is reported. -/
structure Degrades (settings : Settings) (comment : String) (a : Logged Annotation) : Prop where
  /-- At most one thing is reported. -/
  length_log_le : a.log.length ≤ 1
  /-- It is about the whole comment or about its responses. -/
  mem_log : ∀ w ∈ a.log, w ∈ givingUp ∨ w = .responsesNotMapping
  /-- Nothing is left of a comment that is given up. -/
  given_up : ∀ w ∈ a.log, w ∈ givingUp → a.result = {}
  /-- If responses are ignored, then the comment is read as its mapping would be without them. -/
  ignored : .responsesNotMapping ∈ a.log → ∃ es : Entries, Loads comment (.mapping es) ∧
    a.result.responses = .empty ∧
    ofEntries settings.placeholder (es.without "responses") = ⟨a.result, []⟩
  /-- If nothing is reported, then the comment is a mapping or null, and there are responses for the
  codes of the mapping under their field, and for no others. -/
  quiet : a.log = [] → ∃ es : Entries,
    (Loads comment (.mapping es) ∨ Loads comment .null ∧ es = []) ∧
    ∀ code, (a.result.responses.get? code).isSome ↔ ∃ codes : Entries,
      es.field? "responses" = some (.mapping codes) ∧ ∃ e ∈ codes, e.1.keyString = code
  /-- There is no request body exactly if there is no content type. -/
  requestBody_eq_empty_iff : a.result.requestBody = .empty ↔ a.result.bodyContentType = none
  /-- With a content type it is the placeholder under that. -/
  toList_requestBody : ∀ t, a.result.bodyContentType = some t →
    a.result.requestBody.toList =
      [(t, ⟨settings.placeholderType, settings.placeholderSample⟩)]

variable {settings : Settings} {comment : String}

theorem degrades_empty {log : List Warning} (hlength : log.length ≤ 1)
    (hgivingUp : ∀ w ∈ log, w ∈ givingUp) (hquiet : log = [] → Loads comment .null) :
    Degrades settings comment ⟨{}, log⟩ where
  length_log_le := hlength
  mem_log w hw := .inl (hgivingUp w hw)
  given_up _ _ _ := rfl
  ignored h := absurd (hgivingUp _ h) (by decide)
  quiet h := ⟨[], .inr ⟨hquiet h, rfl⟩, fun code => by simp [Entries.field?]⟩
  requestBody_eq_empty_iff := iff_of_true rfl rfl
  toList_requestBody _ h := by cases h

theorem degrades_ofEntries {es : Entries} (h : Loads comment (.mapping es)) :
    Degrades settings comment (ofEntries settings.placeholder es) := by
  have hlog : (ofEntries settings.placeholder es).log = [] ∨
      (ofEntries settings.placeholder es).log = [.responsesNotMapping] ∧
        (ofEntries settings.placeholder es).result.responses = .empty := by
    rcases responsesOf_cases es with ⟨codes, -, hes⟩ | ⟨-, hes | hes⟩ <;> simp [ofEntries, hes]
  have hmem : ∀ w ∈ (ofEntries settings.placeholder es).log, w = .responsesNotMapping := by
    grind
  constructor
  case length_log_le => grind
  case mem_log => exact fun w hw => .inr (hmem w hw)
  case given_up =>
    intro w hw hgivingUp
    obtain rfl := hmem w hw
    exact absurd hgivingUp (by decide)
  case ignored =>
    intro hw
    rcases hlog with hnil | ⟨-, hempty⟩
    · exact absurd (hnil ▸ hw) List.not_mem_nil
    · refine ⟨es, h, hempty, ?_⟩
      rw [ofEntries_without_responses, ← hempty]
  case quiet => exact fun _ => ⟨es, .inl h, isSome_get?_responsesOf_iff es⟩
  case requestBody_eq_empty_iff => exact requestBodyOf_eq_empty_iff
  case toList_requestBody =>
    intro t ht
    have hbody : (ofEntries settings.placeholder es).result.requestBody =
        requestBodyOf settings.placeholder (some t) := congrArg (requestBodyOf _) ht
    rw [hbody, toList_requestBodyOf]
    rfl

/-- Every comment is read in one of the ways there are, and degrades cleanly. -/
theorem parse_degrades (settings : Settings) (comment : String) :
    Outcome settings comment (parse settings comment) ∧
      Degrades settings comment (parse settings comment) := by
  have houtcome := outcome_parse settings comment
  refine ⟨houtcome, ?_⟩
  -- the cases need a variable in place of the result, since they would unfold it
  generalize parse settings comment = a at houtcome ⊢
  cases houtcome with
  | unparseable | unresolvable | notMapping =>
    exact degrades_empty (Nat.le_refl 1) (by decide) (by simp)
  | empty h => exact degrades_empty (Nat.zero_le 1) (by simp) fun _ => h
  | mapping h => exact degrades_ofEntries h

example :
    let a := parse {} "description: Get\nresponses: [404]\n"
    a.log = [.responsesNotMapping] ∧ a.result.description = "Get" := by
  decide +kernel

end Annotation

end RouteDocs
