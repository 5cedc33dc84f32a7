import RouteDocs.Document.Decode
import RouteDocs.Yaml.View

/-!
# Documents in YAML

## Main definitions

* `Document.toYaml`: the document as a YAML value.
* `Document.printYaml?`, `Document.readYaml?`: a document to and from YAML text.
-/

namespace RouteDocs

open Yaml

/-- The document as a YAML value. -/
def Document.toYaml (d : Document) : Value := .ofJson d.toJson

/-- The YAML text of a document. -/
def Document.printYaml? (d : Document) : Option String := d.toYaml.print?

/-- A document from YAML text. -/
def Document.readYaml? (text : String) : Option Document :=
  Tree.readRoot? text.toList fun t => Document.decode t.view

end RouteDocs
