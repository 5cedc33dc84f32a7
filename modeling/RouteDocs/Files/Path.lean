import RouteDocs.Text.Search

/-!
# Paths

A path is names with slashes between them. An empty name says nothing, and neither does a single
dot, unless it is in front.

## Main definitions

* `Files.components`: what stands between the slashes.
* `Files.parent?`: the path without its last name, as it is written.
-/

namespace RouteDocs.Files

/-- What stands between the slashes. -/
def components (path : String) : List String :=
  (Text.splitOn '/' path.toList).map String.ofList

/-- The component with this index is a name. -/
def isName (index : Nat) (component : String) : Bool :=
  component != "" && (component != "." || index = 0)

/-- The components up to and with the last name. -/
def upToName (cs : List String) : List String :=
  match cs.zipIdx.reverse.find? fun (c, i) => isName i c with
  | none => []
  | some (_, i) => cs.take (i + 1)

/-- The path without its last name, up to the name before it. Only the root has none. -/
def parent? (path : String) : Option String :=
  let cs := components path
  let rooted := path.toList.head? = some '/'
  match upToName cs with
  | [] => if rooted || path.isEmpty then none else some ""
  | named =>
    match upToName named.dropLast with
    | [] => some (if rooted then "/" else "")
    | rest => some ("/".intercalate rest)

end RouteDocs.Files
