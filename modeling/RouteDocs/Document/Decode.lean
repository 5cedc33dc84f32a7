import RouteDocs.Data.View
import RouteDocs.Document.Basic

/-!
# Reading a document from data

## Main definitions

* `Document.decode`: reads a document. All fields of its structures have to be there.
-/

namespace RouteDocs

variable {m : Type → Type} [Monad m] {α : Type}

def Info.decode (v : DataView m α) (x : α) : m Info := do
  match ← v.record ["title", "description"] x with
  | [title, description] =>
    return { title := ← v.string title, description := ← v.string description }
  | _ => v.refuse

def Parameter.decode (v : DataView m α) (x : α) : m Parameter := do
  match ← v.record ["name", "in", "required", "schema"] x with
  | [name, location, required, schema] =>
    return {
      name := ← v.string name
      location := ← v.string location
      required := ← v.bool required
      type := ← v.string (← v.single "type" schema) }
  | _ => v.refuse

def MediaType.decode (v : DataView m α) (x : α) : m MediaType := do
  match ← v.record ["type", "example"] (← v.single "schema" x) with
  | [type, sample] => return { type := ← v.string type, sample := ← v.string sample }
  | _ => v.refuse

def Operation.decode (v : DataView m α) (x : α) : m Operation := do
  match ← v.record ["description", "parameters", "responses", "requestBody"] x with
  | [description, parameters, responses, requestBody] =>
    return {
      description := ← v.string description
      parameters := ← (← v.items parameters).mapM (Parameter.decode v)
      responses := ← v.dict v.json responses
      requestBody := ← v.dict (MediaType.decode v) (← v.single "content" requestBody) }
  | _ => v.refuse

def Document.decode (v : DataView m α) (x : α) : m Document := do
  match ← v.record ["openapi", "info", "paths", "components"] x with
  | [openapi, info, paths, components] =>
    return {
      openapi := ← v.string openapi
      info := ← Info.decode v info
      paths := ← v.dict (v.dict (Operation.decode v)) paths
      components := ← v.json components }
  | _ => v.refuse

end RouteDocs
