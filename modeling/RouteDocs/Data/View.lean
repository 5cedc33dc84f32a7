import RouteDocs.Json.Basic

/-!
# Reading records from data formats

Data formats differ in how they show strings, lists and records. A `DataView` says how one format
does; what is read through it does not depend on the format.

## Main definitions

* `DataView`: how the values of a format are taken apart.
* `DataView.dict`, `DataView.record`, `DataView.single`: maps and records.
-/

namespace RouteDocs

/-- How the values `α` of a data format are taken apart, with effects `m`. -/
structure DataView (m : Type → Type) (α : Type) where
  /-- Says that a value is not of the kind that was asked for. -/
  refuse : {β : Type} → m β
  string : α → m String
  bool : α → m Bool
  /-- The value as a whole. -/
  json : α → m Json
  items : α → m (List α)
  /-- The entries of a map, in their order; a key may come more than once. -/
  entries : α → m (List (String × α))
  /-- The values of the named fields of a record, in the order of the names. -/
  fields : List String → α → m (List (Option α))

namespace DataView

variable {m : Type → Type} [Monad m] {α β : Type}

/-- A map; of equal keys the last one counts. -/
def dict (v : DataView m α) (decode : α → m β) (x : α) : m (Dict β) := do
  let es ← (← v.entries x).mapM fun (k, y) => return (k, ← decode y)
  return .ofList es

/-- The values of the named fields, all of which have to be there. -/
def record (v : DataView m α) (names : List String) (x : α) : m (List α) := do
  (← v.fields names x).mapM fun
    | some y => pure y
    | none => v.refuse

/-- A record with one field. -/
def single (v : DataView m α) (name : String) (x : α) : m α := do
  match ← v.record [name] x with
  | [y] => return y
  | _ => v.refuse

end DataView

end RouteDocs
