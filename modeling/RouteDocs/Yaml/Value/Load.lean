import RouteDocs.Yaml.Node.Tree
import RouteDocs.Yaml.Value.Plain

/-!
# The value of a document

Repeated keys are no failure: the last value counts. An alias is followed each time it is met, and
so often only; collections nest to a limited depth.

## Main definitions

* `Yaml.Reading`: a computation that may fail and may follow a limited number of aliases.
* `Scalar.value?`: the value of a scalar.
* `Tree.load`: the value of a node.
* `Value.read?`: the value of a text.
-/

namespace RouteDocs.Yaml

/-- The tag of a core type. -/
def coreTag (name : String) : String := "tag:yaml.org,2002:" ++ name

/-- A tag that is not the tag of a core type names its value. -/
def localTag? (tag : Option String) : Option String :=
  tag.filter fun t => t.toList.head? = some '!'

namespace Scalar

/-- The value of a scalar whose tag is a core type's, some other's, or missing. A core type has to
fit the text. With another tag every text is a string. -/
def value? (s : Scalar) : Option Value :=
  let text := s.text.toList
  match s.tag with
  | none => untagged text
  | some tag =>
    if tag = coreTag "bool" then (Plain.bool? text).map .bool
    else if tag = coreTag "int" then
      (Plain.integer? text).bind fun n => (Whole.ofInt? n).map fun w => .number (.whole w)
    else if tag = coreTag "float" then (Plain.float? text).map fun x => .number (.float x)
    else if tag = coreTag "null" then if Plain.isNull text then some .null else none
    else some (.string s.text)
where
  /-- Only a plain scalar can be something other than a string. -/
  untagged (text : List Char) : Option Value :=
    if s.style = .plain then Plain.value? text else some (.string s.text)

/-- The value of a scalar; a local tag stays with it. -/
def load? (s : Scalar) : Option Value :=
  match localTag? s.tag with
  | some tag => ({ s with tag := none }).value?.map (.tagged (String.ofList (tagName tag.toList)))
  | none => s.value?

end Scalar

/-- A computation that may fail. Its state is the number of aliases that may still be followed. -/
abbrev Reading := StateT Nat Option

/-- A value with the local tag of its node, if that has one. -/
def Value.withTag (tag : Option String) (v : Value) : Value :=
  match localTag? tag with
  | some t => .tagged (String.ofList (tagName t.toList)) v
  | none => v

namespace Tree

/-- The node that an alias stands for; any other node itself. -/
def follow (t : Tree) : Node Nat → Reading (Node Nat)
  | .alias a => do
    match ← get with
    | 0 => failure
    | n + 1 =>
      set n
      StateT.lift (t.target? a)
  | n => pure n

/-- The value of a node, in which at most `depth` collections nest. -/
def load (t : Tree) : (depth : Nat) → Node Nat → Reading Value
  | 0, n => do
    match ← t.follow n with
    | .scalar _ s => StateT.lift s.load?
    | _ => failure
  | depth + 1, n => do
    match ← t.follow n with
    | .scalar _ s => StateT.lift s.load?
    | .alias _ => failure
    | .sequence _ tag items =>
      let items ← items.mapM (load t depth)
      return .withTag tag (.sequence items)
    | .mapping _ tag entries =>
      let entries ← entries.mapM fun (k, x) => return (← load t depth k, ← load t depth x)
      return .withTag tag (.mapping (Entries.ofList entries))

/-- How many collections may nest. -/
def depthLimit : Nat := 128

end Tree

/-- The value of a text. An empty text is null. -/
def Value.read? (text : List Char) : Option Value := do
  let t ← Tree.read? text
  match t.root with
  | none => return .null
  | some n => (t.load Tree.depthLimit n).run' t.aliasLimit

end RouteDocs.Yaml
