import RouteDocs.Components
import RouteDocs.Route.Annotation
import RouteDocs.Route.Signature
import RouteDocs.Source.Block

/-!
# The document of a source text

## Main definitions

* `Route`: a declaration and its comment, both read.
* `routes`: the routes of a source text.
* `Document.initial`, `Document.addRoute`, `Document.setComponents`: building a document.
* `generate`: the document of a source text.
-/

namespace RouteDocs

open Source

/-- A route. -/
structure Route where
  signature : Signature
  annotation : Annotation

/-- Reads the two parts of a block. A comment is only read if its declaration is well formed. -/
def Route.ofBlock (settings : Settings) (b : Block) : Except Signature.Malformed (Logged Route) :=
  match Signature.parse b.declaration with
  | .error e => .error e
  | .ok s =>
    let a := Annotation.parse settings b.comment
    .ok { result := ⟨s.result, a.result⟩, log := s.log ++ a.log }

/-- The routes of a source text, in their order. -/
def routes (settings : Settings) (source : String) :
    List (Except Signature.Malformed (Logged Route)) :=
  (blocks source).map (Route.ofBlock settings)

/-! ## Building a document -/

/-- A parameter in the path is always required. -/
def PathParameter.toParameter (p : PathParameter) : Parameter :=
  { name := p.name, location := "path", required := true, type := p.type }

/-- The operation that a route documents. -/
def Route.operation (r : Route) : Operation :=
  { description := r.annotation.description
    parameters := r.signature.parameters.map PathParameter.toParameter
    responses := r.annotation.responses
    requestBody := r.annotation.requestBody }

namespace Document

/-- A document without operations and components. -/
def initial (settings : Settings) : Document :=
  { openapi := settings.openapiVersion
    info := settings.info
    paths := .empty
    components := .emptyObject }

/-- Adds an operation under its URL template and verb. A later one takes the place of an earlier
one. -/
def addRoute (d : Document) (r : Route) : Document :=
  { d with
    paths := d.paths.modify r.signature.urlTemplate (·.insert r.signature.verb r.operation) }

/-- Sets the components. -/
def setComponents (d : Document) (c : Json) : Document := { d with components := c }

/-- Adds routes up to the first malformed declaration, which is a failure. -/
def addRoutes (d : Document) :
    List (Except Signature.Malformed (Logged Route)) → Logged (Except Signature.Malformed Document)
  | [] => { result := .ok d }
  | .error e :: _ => { result := .error e }
  | .ok r :: rs =>
    let rest := addRoutes (d.addRoute r.result) rs
    { rest with log := r.log ++ rest.log }

end Document

/-- The document of a source text. A malformed declaration is the only failure; the components are
not read then. -/
def generate (settings : Settings) (source : String) :
    Logged (Except Signature.Malformed Document) :=
  match (Document.initial settings).addRoutes (routes settings source) with
  | ⟨.error e, log⟩ => { result := .error e, log := log }
  | ⟨.ok d, log⟩ =>
    let components := Components.parse source
    { result := .ok (d.setComponents components.result), log := log ++ components.log }

end RouteDocs
