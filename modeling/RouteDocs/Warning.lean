/-!
# Warnings

Text that is not understood never stops a run; it is reported and documents nothing.

## Main definitions

* `Warning`: what can be reported about a source text.
* `Warning.message`: its wording.
* `Logged`: a result together with the warnings on the way to it, in their order.
-/

namespace RouteDocs

/-- The texts that are read as mappings. -/
inductive Region where
  | routeComment
  | components
deriving DecidableEq

/-- What a message calls a region. -/
def Region.name : Region → String
  | .routeComment => "route annotation"
  | .components => "components block"

/-- What can be reported about a source text. The details that a message may end with, behind a
colon, are left out: the wording of the YAML reader and the value that is shown. So is what is only
reported for debugging. -/
inductive Warning where
  /-- A URL has more or fewer typed placeholders than the handler has parameters. -/
  | placeholderCount (url : String) (placeholders parameters : Nat)
  /-- A region is not valid YAML. -/
  | unparseable (region : Region)
  /-- A merge key of a region holds something that cannot be merged. -/
  | unresolvableMerge (region : Region)
  /-- A region is valid YAML, but neither a mapping nor empty. -/
  | notMapping (region : Region)
  /-- The responses of an annotation are neither a mapping nor absent. -/
  | responsesNotMapping
deriving DecidableEq

/-- The wording of a warning, without such details. -/
def Warning.message : Warning → String
  | .placeholderCount url placeholders parameters =>
    "URL " ++ url ++ " has " ++ toString placeholders ++
      " typed placeholders but the handler declares " ++ toString parameters ++
      " parameters; extra entries are ignored"
  | .unparseable region => "Unparseable " ++ region.name ++ ", using empty values"
  | .unresolvableMerge region =>
    "Unresolvable merge key in " ++ region.name ++ ", using empty values"
  | .notMapping region => "Ignoring " ++ region.name ++ " that is not a mapping"
  | .responsesNotMapping => "Ignoring non-mapping `responses`"

/-- A result, and the warnings on the way to it. -/
structure Logged (α : Type) where
  result : α
  log : List Warning := []

end RouteDocs
