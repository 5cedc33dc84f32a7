import RouteDocs.Text.Lines
import RouteDocs.Warning
import RouteDocs.Yaml.Value.Load
import RouteDocs.Yaml.Value.Merge

/-!
# Regions as mappings

## Main definitions

* `Region.read`: the mapping that the text of a region holds. A text that is not understood is
  reported.
-/

namespace RouteDocs

open Yaml

/-- The mapping in the text of a region. There is none if the text is not valid YAML or a merge key
holds something that cannot be merged. An empty text counts as an empty mapping, and so does, with a
warning, anything else that is no mapping. -/
def Region.read (region : Region) (text : List Char) : Logged (Option Entries) :=
  match Value.read? (Text.dedent text) with
  | none => { result := none, log := [.unparseable region] }
  | some v =>
    match v.merge? with
    | none => { result := none, log := [.unresolvableMerge region] }
    | some (.mapping es) => { result := some es }
    | some .null => { result := some [] }
    | some _ => { result := some [], log := [.notMapping region] }

/-- Only the dedented text of a region counts. -/
theorem Region.read_congr (region : Region) {s t : List Char}
    (h : Text.dedent s = Text.dedent t) : region.read s = region.read t := by
  rw [read, read, h]

end RouteDocs
