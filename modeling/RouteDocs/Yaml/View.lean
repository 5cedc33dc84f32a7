import RouteDocs.Data.View
import RouteDocs.Yaml.Value.Json
import RouteDocs.Yaml.Value.Load

/-!
# Records in YAML

Where a string is asked for, every scalar is one, whatever it would mean otherwise. A record and a
list may be left empty.

## Main definitions

* `Yaml.Inside`: a node inside a number of collections that may still be opened.
* `Tree.json`: the JSON value of a node. Keys are the texts of scalars; local tags fail.
* `Tree.view`: how a document is taken apart.
-/

namespace RouteDocs.Yaml

/-- A node below which `depth` collections may nest. -/
structure Inside where
  depth : Nat
  node : Node Nat

/-- The scalar that is written as nothing. -/
def Scalar.isLeftOut (s : Scalar) : Bool := s.style = .plain && s.text.isEmpty

/-- The boolean that a scalar is read as where one is asked for. -/
def Scalar.bool? (s : Scalar) : Option Bool :=
  if s.style = .plain || (s.style = .literal && s.tag = some (coreTag "bool")) then
    Plain.bool? s.text.toList
  else none

/-- The JSON value of a scalar. -/
def Scalar.json? (s : Scalar) : Option Json :=
  if (localTag? s.tag).isSome then none else s.value?.map Value.toJson

namespace Tree

/-- The text of a scalar. -/
def string (t : Tree) (n : Node Nat) : Reading String := do
  match ← t.follow n with
  | .scalar _ s => return s.text
  | _ => failure

/-- The JSON value of a node. -/
def json (t : Tree) : (depth : Nat) → Node Nat → Reading Json
  | 0, n => do
    match ← t.follow n with
    | .scalar _ s => StateT.lift s.json?
    | _ => failure
  | depth + 1, n => do
    match ← t.follow n with
    | .scalar _ s => StateT.lift s.json?
    | .alias _ => failure
    | .sequence _ tag items =>
      if (localTag? tag).isSome then failure
      else return .array (← items.mapM (json t depth))
    | .mapping _ tag entries =>
      if (localTag? tag).isSome then failure
      else
        let members ← entries.mapM fun (k, x) => return (← t.string k, ← json t depth x)
        return .ofMembers members

/-- A collection inside `depth` others, if one more may be opened. -/
def enter {α : Type} (depth : Nat) (f : Nat → Reading α) : Reading α :=
  match depth with
  | 0 => failure
  | d + 1 => f d

/-- The entries of a mapping whose keys are strings. -/
def stringEntries (t : Tree) (depth : Nat) (entries : List (Node Nat × Node Nat)) :
    Reading (List (String × Inside)) :=
  entries.mapM fun (k, x) => return (← t.string k, ⟨depth, x⟩)

/-- The value of a field among the entries of a record. It must not come twice. -/
def fieldValue (entries : List (String × Inside)) (name : String) : Reading (Option Inside) :=
  match entries.filter (·.1 = name) with
  | [] => pure none
  | [(_, x)] => pure (some x)
  | _ => failure

/-- How a document is taken apart. -/
def view (t : Tree) : DataView Reading Inside where
  refuse := failure
  string x := t.string x.node
  bool x := do
    match ← t.follow x.node with
    | .scalar _ s => StateT.lift s.bool?
    | _ => failure
  json x := t.json x.depth x.node
  items x := do
    match ← t.follow x.node with
    | .sequence _ _ items => enter x.depth fun d => return items.map (⟨d, ·⟩)
    | .scalar _ s => if s.isLeftOut then return [] else failure
    | _ => failure
  entries x := do
    match ← t.follow x.node with
    | .mapping _ _ entries => enter x.depth fun d => t.stringEntries d entries
    | .scalar _ s => if s.isLeftOut then return [] else failure
    | _ => failure
  fields names x := do
    match ← t.follow x.node with
    | .mapping _ _ entries =>
      enter x.depth fun d => do
        let es ← t.stringEntries d entries
        names.mapM (fieldValue es)
    | .scalar _ s => if s.isLeftOut then return names.map fun _ => none else failure
    | _ => failure

/-- What a computation reads from the root of a text. An empty text has a root that is left out. -/
def readRoot? {α : Type} (text : List Char) (f : Tree → Inside → Reading α) : Option α := do
  let t ← Tree.read? text
  (f t ⟨depthLimit, t.root.getD .nothing⟩).run' t.aliasLimit

end Tree

end RouteDocs.Yaml
