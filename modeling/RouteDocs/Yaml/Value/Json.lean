import RouteDocs.Json.Basic
import RouteDocs.Yaml.Printer

/-!
# YAML values and JSON values

## Main definitions

* `Value.keyString`: a key as a string; collections give their YAML text.
* `Value.toJson`: a YAML value as a JSON value, without its tags.
* `Value.ofJson`: a JSON value as a YAML value.
-/

namespace RouteDocs.Yaml.Value

/-- A boolean as a string. -/
def boolString (b : Bool) : String := if b then "true" else "false"

/-- A key as a string. A collection that cannot be written gives the empty string. -/
def keyString : Value → String
  | .null => "null"
  | .bool b => boolString b
  | .number n => String.ofList (n.text numberLayout)
  | .string s => s
  | .tagged _ v => keyString v
  | v => (v.print?.map fun s => String.ofList (Text.trimEnd s.toList)).getD ""

/-- A string, number or boolean as a string. -/
def scalarString? : Value → Option String
  | .string s => some s
  | .number n => some (String.ofList (n.text numberLayout))
  | .bool b => some (boolString b)
  | _ => none

/-- A number in JSON: what is not finite becomes null. -/
def numberJson : Number → Json
  | .whole n => .number (.whole n)
  | .float x => if x.isFinite then .number (.float x) else .null

mutual

/-- A YAML value as a JSON value. Of keys with the same string the last one counts. -/
def toJson : Value → Json
  | .null => .null
  | .bool b => .bool b
  | .number n => numberJson n
  | .string s => .string s
  | .sequence items => .array (itemsToJson items)
  | .mapping es => .ofMembers (entriesToJson es)
  | .tagged _ v => toJson v

def itemsToJson : List Value → List Json
  | [] => []
  | x :: xs => toJson x :: itemsToJson xs

def entriesToJson : List (Value × Value) → List (String × Json)
  | [] => []
  | (k, x) :: es => (k.keyString, toJson x) :: entriesToJson es

end

mutual

/-- A JSON value as a YAML value. -/
def ofJson : Json → Value
  | .null => .null
  | .bool b => .bool b
  | .number n => .number n
  | .string s => .string s
  | .array items => .sequence (itemsOfJson items)
  | .object members => .mapping (membersOfJson members)

def itemsOfJson : List Json → List Value
  | [] => []
  | x :: xs => ofJson x :: itemsOfJson xs

def membersOfJson : List (String × Json) → List (Value × Value)
  | [] => []
  | (k, x) :: es => (.string k, ofJson x) :: membersOfJson es

end

end RouteDocs.Yaml.Value
