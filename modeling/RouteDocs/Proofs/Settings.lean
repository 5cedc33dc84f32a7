import RouteDocs.Generate
import RouteDocs.Proofs.Dict

/-!
# Settings and what is read

The settings give a document its head and the placeholders for the schemas of its request bodies.
They take no part in reading: with other settings the same source text gives the same document with
another head and other placeholders, or the same failure, and the same is reported.

## Main definitions

* `Logged.map`: another result, with the same warnings on the way to it.
* `Document.withSettings`: the document with the head and the placeholders of other settings.

## Main statement

* `generate_withSettings`: all that the settings have to do with the document of a source text.
-/

namespace RouteDocs

open Source

/-- Another result, with the same warnings on the way to it. -/
def Logged.map {α β : Type} (f : α → β) (x : Logged α) : Logged β :=
  { result := f x.result, log := x.log }

/-! ## Exchanging the settings -/

/-- The operation with another placeholder for all schemas of its request body. -/
def Operation.withPlaceholder (placeholder : MediaType) (o : Operation) : Operation :=
  { o with requestBody := o.requestBody.map fun _ => placeholder }

/-- The path item with another placeholder for all schemas of its request bodies. -/
def PathItem.withPlaceholder (placeholder : MediaType) (item : PathItem) : PathItem :=
  item.map (·.withPlaceholder placeholder)

/-- The document with the head and the placeholders of other settings. -/
def Document.withSettings (settings : Settings) (d : Document) : Document :=
  { d with
    openapi := settings.openapiVersion
    info := ⟨settings.title, settings.description⟩
    paths := d.paths.map
      (PathItem.withPlaceholder ⟨settings.placeholderType, settings.placeholderSample⟩) }

/-- The annotation with another placeholder for the schema of its request body. -/
def Annotation.withPlaceholder (placeholder : MediaType) (a : Annotation) : Annotation :=
  { a with requestBody := a.requestBody.map fun _ => placeholder }

/-- The route with another placeholder for the schema of its request body. -/
def Route.withPlaceholder (placeholder : MediaType) (r : Route) : Route :=
  { r with annotation := r.annotation.withPlaceholder placeholder }

/-! ## Reading a block -/

variable (s s' : Settings)

namespace Annotation

theorem requestBodyOf_withPlaceholder (m m' : MediaType) (contentType : Option String) :
    requestBodyOf m' contentType = (requestBodyOf m contentType).map fun _ => m' := by
  cases contentType with
  | none => rfl
  | some contentType =>
    rw [requestBodyOf, requestBodyOf, Dict.map_insert]
    rfl

theorem ofEntries_withPlaceholder (m m' : MediaType) (es : Yaml.Entries) :
    ofEntries m' es = (ofEntries m es).map (withPlaceholder m') := by
  simp only [ofEntries, Logged.map, withPlaceholder, ← requestBodyOf_withPlaceholder]

/-- The settings only give a comment its placeholder. -/
theorem parse_withPlaceholder (comment : String) :
    parse s' comment = (parse s comment).map (withPlaceholder s'.placeholder) := by
  unfold parse
  split
  · rfl
  · rw [ofEntries_withPlaceholder s.placeholder s'.placeholder]
    rfl

end Annotation

theorem Route.ofBlock_withPlaceholder (b : Block) :
    ofBlock s' b = (ofBlock s b).map (Logged.map (withPlaceholder s'.placeholder)) := by
  unfold ofBlock
  split
  · rfl
  · have hparse := Annotation.parse_withPlaceholder s s' b.comment
    rw [hparse]
    rfl

/-! ## Building the document -/

namespace Document

theorem withSettings_initial : (initial s).withSettings s' = initial s' := rfl

/-- A route that is added gets the new placeholder like all others. -/
theorem withSettings_addRoute (d : Document) (r : Route) :
    (d.addRoute r).withSettings s =
      (d.withSettings s).addRoute (r.withPlaceholder s.placeholder) := by
  have hitem : ∀ m (item : PathItem),
      PathItem.withPlaceholder m (item.insert r.signature.verb r.operation) =
        (PathItem.withPlaceholder m item).insert r.signature.verb (r.operation.withPlaceholder m) :=
    fun _ item => Dict.map_insert _ item _ _
  have hpaths : ∀ m, (d.paths.modify r.signature.urlTemplate
        (·.insert r.signature.verb r.operation)).map (PathItem.withPlaceholder m) =
      (d.paths.map (PathItem.withPlaceholder m)).modify r.signature.urlTemplate
        (·.insert r.signature.verb (r.operation.withPlaceholder m)) := by
    intro m
    apply Dict.map_modify
    · exact hitem m
    · rfl
  simp only [withSettings, addRoute, hpaths]
  rfl

theorem withSettings_addRoutes (d : Document)
    (rs : List (Except Signature.Malformed (Logged Route))) :
    (d.withSettings s).addRoutes
        (rs.map (Except.map (Logged.map (Route.withPlaceholder s.placeholder)))) =
      (d.addRoutes rs).map (Except.map (withSettings s)) := by
  induction rs generalizing d with
  | nil => rfl
  | cons r rs ih =>
    cases r with
    | error e => rfl
    | ok r =>
      have hrest := ih (d.addRoute r.result)
      rw [withSettings_addRoute] at hrest
      exact congrArg (fun rest => { rest with log := r.log ++ rest.log }) hrest

end Document

theorem routes_withPlaceholder (source : String) :
    routes s' source = (routes s source).map
      (Except.map (Logged.map (Route.withPlaceholder s'.placeholder))) := by
  rw [routes, routes, List.map_map]
  exact List.map_congr_left fun b _ => Route.ofBlock_withPlaceholder s s' b

/-! ## The document of a source text -/

theorem generate_eq_withSettings (source : String) :
    generate s' source = (generate s source).map (Except.map (Document.withSettings s')) := by
  have hroutes := Document.withSettings_addRoutes s' (Document.initial s) (routes s source)
  rw [Document.withSettings_initial, ← routes_withPlaceholder] at hroutes
  rw [generate, generate, hroutes]
  rcases (Document.initial s).addRoutes (routes s source) with ⟨result, log⟩
  cases result <;> rfl

/-- All schemas of a document with these settings are their placeholder. -/
theorem Document.eq_placeholder_of_mem {d : Document} {item : String × PathItem}
    {o : String × Operation} {m : String × MediaType}
    (hitem : item ∈ (d.withSettings s).paths.toList) (ho : o ∈ item.2.toList)
    (hm : m ∈ o.2.requestBody.toList) : m.2 = ⟨s.placeholderType, s.placeholderSample⟩ := by
  obtain ⟨item, -, rfl⟩ := List.mem_map.1 hitem
  obtain ⟨o, -, rfl⟩ := List.mem_map.1 ho
  obtain ⟨m, -, rfl⟩ := List.mem_map.1 hm
  rfl

/-- Two settings make of a source text the same document, up to its head and its placeholders, or
the same failure, and the same is reported. The head has the title and the description of the
settings, and every schema of a request body has their type and their sample. -/
theorem generate_withSettings (source : String) :
    generate s' source = (generate s source).map (Except.map (Document.withSettings s')) ∧
      ∀ d, (generate s source).result = .ok d →
        d.openapi = s.openapiVersion ∧ d.info = ⟨s.title, s.description⟩ ∧
        ∀ item ∈ d.paths.toList, ∀ o ∈ item.2.toList, ∀ m ∈ o.2.requestBody.toList,
          m.2 = ⟨s.placeholderType, s.placeholderSample⟩ := by
  refine ⟨generate_eq_withSettings s s' source, fun d hd => ?_⟩
  -- with the same settings nothing is exchanged
  have hresult : (generate s source).result =
      (generate s source).result.map (Document.withSettings s) :=
    congrArg Logged.result (generate_eq_withSettings s s source)
  rw [hd] at hresult
  have hself : d.withSettings s = d := (Except.ok.inj hresult).symm
  rw [← hself]
  exact ⟨rfl, rfl, fun item hitem o ho m hm => Document.eq_placeholder_of_mem s hitem ho hm⟩

end RouteDocs
