import RouteDocs.Data.Dict
import RouteDocs.Data.Number

/-!
# JSON values

## Main definitions

* `Json`: a value. An object is a list of members.
* `Json.ofMembers`: the object with given members, in the order of its keys.
-/

namespace RouteDocs

/-- A JSON value. -/
inductive Json where
  | null
  | bool (b : Bool)
  | number (n : Number)
  | string (s : String)
  | array (items : List Json)
  | object (members : List (String × Json))

namespace Json

/-- The object with the entries of a dictionary. -/
def ofDict (d : Dict Json) : Json := .object d.toList

/-- The object with given members, in the order of the keys; of equal keys the last one counts. -/
def ofMembers (members : List (String × Json)) : Json := ofDict (Dict.ofList members)

/-- The empty object. -/
def emptyObject : Json := .object []

/-- The number of members of an object; other values have none. -/
def memberCount : Json → Nat
  | .object members => members.length
  | _ => 0

end Json

end RouteDocs
