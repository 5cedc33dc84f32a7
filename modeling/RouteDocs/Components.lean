import RouteDocs.Region
import RouteDocs.Source.Pattern
import RouteDocs.Yaml.Value.Json

/-!
# The components of a source text

The shared schemas are declared once, in a long comment whose first key is `components`.

## Main definitions

* `Components.region?`: the text of the first such comment.
* `Components.parse`: the value under its key.
-/

namespace RouteDocs.Components

open Yaml Source

/-- The text of the first components comment. -/
def region? (source : String) : Option (List Char) :=
  (Pattern.componentsRegion.search? none source.toList).map fun (_, m) => m.group 0

/-- The components among the entries of the comment. -/
def ofEntries (es : Entries) : Json :=
  match es.field? "components" with
  | none => .emptyObject
  | some v => if v.isNull then .emptyObject else v.toJson

/-- The components of a source text; an empty object if there are none, or none that are
understood. -/
def parse (source : String) : Logged Json :=
  match region? source with
  | none => { result := .emptyObject }
  | some text =>
    let read := Region.components.read text
    { result := (read.result.map ofEntries).getD .emptyObject, log := read.log }

end RouteDocs.Components
