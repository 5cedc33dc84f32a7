import RouteDocs.Json.Basic

/-!
# API documents

A document has a head, the operations under their URL templates and verbs, and a components value
that it passes on as it is.

## Main definitions

* `Document` and the structures it is made of.
* `Document.toJson`: the document as a JSON value. The fields of a structure come in a fixed order,
  everything else in the order of the keys.
-/

namespace RouteDocs

/-- What the head of a document says about the API. -/
structure Info where
  title : String
  description : String
deriving DecidableEq

/-- A parameter of an operation. -/
structure Parameter where
  name : String
  location : String
  required : Bool
  type : String
deriving DecidableEq

/-- The schema of a request body, which only holds a place. -/
structure MediaType where
  type : String
  sample : String
deriving DecidableEq

/-- The documentation of a verb under a URL template. -/
structure Operation where
  description : String
  parameters : List Parameter
  /-- The responses by status code. -/
  responses : Dict Json
  /-- The media types of the request body by content type. -/
  requestBody : Dict MediaType

/-- The operations under a URL template, by verb. -/
abbrev PathItem := Dict Operation

/-- An API document. -/
structure Document where
  openapi : String
  info : Info
  /-- The path items by URL template. -/
  paths : Dict PathItem
  components : Json

/-! ## As a JSON value -/

def Info.toJson (i : Info) : Json :=
  .object [("title", .string i.title), ("description", .string i.description)]

/-- A schema of which only the type is known. -/
def Parameter.schemaJson (p : Parameter) : Json := .object [("type", .string p.type)]

def Parameter.toJson (p : Parameter) : Json :=
  .object [("name", .string p.name), ("in", .string p.location), ("required", .bool p.required),
    ("schema", p.schemaJson)]

def MediaType.toJson (t : MediaType) : Json :=
  .object [("schema", .object [("type", .string t.type), ("example", .string t.sample)])]

def Operation.toJson (o : Operation) : Json :=
  .object [("description", .string o.description),
    ("parameters", .array (o.parameters.map Parameter.toJson)),
    ("responses", .ofDict o.responses),
    ("requestBody", .object [("content", .ofDict (o.requestBody.map MediaType.toJson))])]

def PathItem.toJson (p : PathItem) : Json := .ofDict (p.map Operation.toJson)

def Document.toJson (d : Document) : Json :=
  .object [("openapi", .string d.openapi), ("info", d.info.toJson),
    ("paths", .ofDict (d.paths.map PathItem.toJson)), ("components", d.components)]

/-- The number of operations under all URL templates. -/
def Document.operationCount (d : Document) : Nat :=
  d.paths.toList.foldl (fun n (_, item) => n + item.size) 0

end RouteDocs
