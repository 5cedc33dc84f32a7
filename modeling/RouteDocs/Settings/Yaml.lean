import RouteDocs.Settings
import RouteDocs.Yaml.View

/-!
# Settings in YAML

## Main definitions

* `Configuration.read?`: a configuration from YAML text.
* `Settings.read?`: settings from YAML text. What the text does not set keeps its default.
-/

namespace RouteDocs

open Yaml

/-- A configuration from a record, none of whose fields has to be there. -/
def Configuration.decode {m : Type → Type} [Monad m] {α : Type} (v : DataView m α) (x : α) :
    m Configuration := do
  match ← v.fields ["openapi_version", "title", "description", "placeholder_schema_type",
      "placeholder_example"] x with
  | [version, title, description, type, sample] =>
    return {
      openapiVersion := ← version.mapM v.string
      title := ← title.mapM v.string
      description := ← description.mapM v.string
      placeholderType := ← type.mapM v.string
      placeholderSample := ← sample.mapM v.string }
  | _ => v.refuse

/-- A configuration from YAML text. A text of white space sets nothing. -/
def Configuration.read? (text : String) : Option Configuration :=
  if text.toList.all Text.isSpace then some {}
  else Tree.readRoot? text.toList fun t => Configuration.decode t.view

/-- Settings from YAML text. -/
def Settings.read? (text : String) : Option Settings :=
  (Configuration.read? text).map Configuration.settings

end RouteDocs
