import RouteDocs.Document.Decode
import RouteDocs.Json.Printer
import RouteDocs.Json.Reader

/-!
# Documents in JSON

A record is an object, or an array with the values of its fields in their order. Fields that are
not asked for are passed over, even if their value could not be read.

## Main definitions

* `Document.ofJson?`: a document from a JSON value.
* `Document.printJson`, `Document.readJson?`: a document to and from JSON text.
-/

namespace RouteDocs

/-- The values of the named fields in a list of members; `none` if a field comes twice. -/
def fieldValues? {α : Type} (names : List String) (members : List (String × α)) :
    Option (List (Option α)) :=
  names.mapM fun name =>
    match members.filter (·.1 = name) with
    | [] => some none
    | [(_, x)] => some (some x)
    | _ => none

/-- The values of an array that stands for a record with these fields. -/
def positionalFields? {α : Type} (names : List String) (items : List α) :
    Option (List (Option α)) :=
  if items.length = names.length then some (items.map some) else none

/-- How JSON values are taken apart. -/
def Json.view : DataView Option Json where
  refuse := none
  string
    | .string s => some s
    | _ => none
  bool
    | .bool b => some b
    | _ => none
  json := some
  items
    | .array items => some items
    | _ => none
  entries
    | .object members => some members
    | _ => none
  fields names
    | .object members => fieldValues? names members
    | .array items => positionalFields? names items
    | _ => none

/-- A document from a JSON value. -/
def Document.ofJson? (j : Json) : Option Document := Document.decode Json.view j

/-- JSON text inside a number of arrays and objects that may still be opened. -/
structure RawJson.Nested where
  depth : Nat
  text : RawJson

/-- The arrays and objects inside `depth` others, if that is not too deep. -/
def RawJson.Nested.enter? {β : Type} (depth : Nat) (f : Nat → Option β) : Option β :=
  if depth ≤ 1 then none else f (depth - 1)

/-- How JSON text is taken apart. -/
def RawJson.view : DataView Option RawJson.Nested where
  refuse := none
  string
    | ⟨_, .string s⟩ => (RawString.value? s).map String.ofList
    | _ => none
  bool
    | ⟨_, .bool b⟩ => some b
    | _ => none
  json x := x.text.value x.depth
  items
    | ⟨depth, .array items⟩ => Nested.enter? depth fun d => some (items.map (⟨d, ·⟩))
    | _ => none
  entries
    | ⟨depth, .object members⟩ =>
      Nested.enter? depth fun d => members.mapM fun (k, x) =>
        (RawString.value? k).map (String.ofList ·, ⟨d, x⟩)
    | _ => none
  fields names
    | ⟨depth, .object members⟩ =>
      Nested.enter? depth fun d => do
        let members ← members.mapM fun (k, x) =>
          (RawString.value? k).map (String.ofList ·, Nested.mk d x)
        fieldValues? names members
    | ⟨depth, .array items⟩ =>
      Nested.enter? depth fun d => positionalFields? names (items.map (⟨d, ·⟩))
    | _ => none

/-- A document from JSON text. -/
def Document.readJson? (text : String) : Option Document := do
  let j ← RawJson.read? text.toList
  Document.decode RawJson.view ⟨RawJson.depthLimit, j⟩

/-- The JSON text of a document. -/
def Document.printJson (d : Document) : String := d.toJson.print

end RouteDocs
