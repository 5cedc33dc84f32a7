import RouteDocs.Region
import RouteDocs.Settings
import RouteDocs.Yaml.Value.Json

/-!
# Route comments

The comment of a route is a YAML mapping. Its keys are `description`, `bodyContentType` and
`responses`; others are ignored. A comment that is not understood documents nothing.

## Main definitions

* `Annotation`: what a comment documents.
* `Annotation.parse`: reads a comment.
* `Yaml.Value.isFalsy`: the contents of a response that document nothing.
-/

namespace RouteDocs

open Yaml

/-- What a comment documents. -/
structure Annotation where
  description : String := ""
  bodyContentType : Option String := none
  /-- The media type of the request body, by the content type. -/
  requestBody : Dict MediaType := .empty
  /-- The responses, by status code. -/
  responses : Dict Json := .empty

/-- Null, false, zero and whatever is empty. -/
def Yaml.Value.isFalsy : Value → Bool
  | .null => true
  | .bool b => !b
  | .number n => n.isZero
  | .string s => s.isEmpty
  | .sequence items => items.isEmpty
  | .mapping es => es.isEmpty
  | .tagged _ v => isFalsy v

namespace Annotation

/-- The description under the entries of a comment. -/
def descriptionOf (es : Entries) : String :=
  ((es.field? "description").bind Value.scalarString?).getD ""

/-- The content type of the request body under the entries of a comment. -/
def bodyContentTypeOf (es : Entries) : Option String :=
  (es.field? "bodyContentType").map Value.keyString

/-- A request body with a content type has one media type. -/
def requestBodyOf (placeholder : MediaType) : Option String → Dict MediaType
  | none => .empty
  | some contentType => Dict.empty.insert contentType placeholder

/-- The content of a response. -/
def responseOf (content : Value) : Json :=
  if content.isFalsy then .emptyObject else content.toJson

/-- The responses under the entries of a comment. Of codes with the same string the last one counts.
-/
def responsesOf (es : Entries) : Logged (Dict Json) :=
  match es.field? "responses" with
  | some (.mapping codes) =>
    { result := .ofList (codes.map fun (code, content) => (code.keyString, responseOf content)) }
  | some .null | none => { result := .empty }
  | some _ => { result := .empty, log := [.responsesNotMapping] }

/-- What the entries of a comment document. -/
def ofEntries (placeholder : MediaType) (es : Entries) : Logged Annotation :=
  let contentType := bodyContentTypeOf es
  let responses := responsesOf es
  { result :=
      { description := descriptionOf es
        bodyContentType := contentType
        requestBody := requestBodyOf placeholder contentType
        responses := responses.result }
    log := responses.log }

/-- Reads a comment. -/
def parse (settings : Settings) (comment : String) : Logged Annotation :=
  match Region.routeComment.read comment.toList with
  | ⟨none, log⟩ => { result := {}, log := log }
  | ⟨some es, log⟩ =>
    let a := ofEntries settings.placeholder es
    { a with log := log ++ a.log }

/-- Only the dedented text of a comment counts. -/
theorem parse_congr (settings : Settings) {a b : String}
    (h : Text.dedent a.toList = Text.dedent b.toList) : parse settings a = parse settings b := by
  rw [parse, parse, Region.read_congr _ h]

end Annotation

end RouteDocs
